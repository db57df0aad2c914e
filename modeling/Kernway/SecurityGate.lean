import Kernway.Bans
import Kernway.KernleafExpr
import Kernway.SecurityPolicy
import Kernway.StaticOutcome

namespace Kernway

open Kernleaf (Authorization)

/-- What a handler or a middleware comes to: a response, or the message of its panic. -/
abbrev Outcome := Except Text Response

/-- What a middleware makes of a request: it answers, or it runs the rest of the chain, which it is
given once, and sees what comes of it. `S` is the request's scope and the state of the program. -/
inductive Handling (S : Type)
  | answer (outcome : Outcome) (s : S)
  | next (request : Request) (s : S) (after : Outcome → S → Outcome × S)

structure Middleware (S : Type) where
  handle : Request → S → Handling S

/-- A route's handler, with the parameters of the path. -/
abbrev Handler (S : Type) := Request → Params → S → Outcome × S

variable {S : Type}

/-- `Next::run` over the middlewares that are left. -/
def runNext (terminal : Request → S → Outcome × S) : List (Middleware S) → Request → S →
    Outcome × S
  | [], request, s => terminal request s
  | first :: rest, request, s =>
    match first.handle request s with
    | .answer outcome s => (outcome, s)
    | .next request s after =>
      let (outcome, s) := runNext terminal rest request s
      after outcome s

def Response.withBody (response : Response) (bytes : Bytes) : Option Response :=
  if fits : bytes.length < 2 ^ 64 then some { response with body := .bytes bytes fits } else none

/-- A `None` of the insertion is its panic. -/
def Outcome.of (response : Option Response) : Outcome :=
  match response with
  | some response => .ok response
  | none => .error "header text stays far below 4GiB".toList

/-- A response of one content type with a body in memory. -/
def plainResponse (status : UInt16) (contentType body : Text) : Option Response := do
  let r ← (Response.new status).withHeader "content-type".toList contentType
  r.withBody (encodeUtf8 body)

def forbidden : Outcome :=
  .of (plainResponse 403 "application/json; charset=utf-8".toList
    "\x7b\"status\":403,\"title\":\"Forbidden\",\"detail\":\"insufficient role\"\x7d".toList)

def unauthorized : Outcome :=
  .of (plainResponse 401 "application/json; charset=utf-8".toList
    "\x7b\"status\":401,\"title\":\"Unauthorized\",\"detail\":\"authentication required\"\x7d".toList)

def bannedResponse : Outcome :=
  .of (plainResponse 403 "application/json; charset=utf-8".toList
    "\x7b\"status\":403,\"title\":\"Forbidden\",\"detail\":\"access denied\"\x7d".toList)

def panicResponse : Option Response :=
  plainResponse 500 "application/json; charset=utf-8".toList
    ("\x7b\"status\":500,\"title\":\"Internal Server Error\"," ++
      "\"detail\":\"the request handler failed\"\x7d").toList

/-- `run_handler`, the end of the chain. -/
def runHandler (router : Router (Handler S)) (request : Request) (s : S) : Outcome × S :=
  match router.find request.method request.path with
  | some (handler, params) => handler request params s
  | none =>
    let body := "\x7b\"error\":\"no route for ".toList ++ request.method ++ ' ' :: request.path ++
      "\"\x7d".toList
    (.of (plainResponse 404 "application/json".toList body), s)

inductive Decision
  | allow
  | unauthenticated
  | forbidden
  deriving DecidableEq

def decideAccess (access : Access) (context : Authorization) : Decision :=
  match access with
  | .permitAll => .allow
  | .authenticated => if context.isAuthenticated then .allow else .unauthenticated
  | .hasRole role =>
    if !context.isAuthenticated then .unauthenticated
    else if context.hasRole role then .allow
    else .forbidden
  | .hasAnyRole roles =>
    if !context.isAuthenticated then .unauthenticated
    else if roles.any context.hasRole then .allow
    else .forbidden
  | .hasAuthority a =>
    if !context.isAuthenticated then .unauthenticated
    else if context.hasAuthority a then .allow
    else .forbidden
  | .hasAnyAuthority auths =>
    if !context.isAuthenticated then .unauthenticated
    else if auths.any context.hasAuthority then .allow
    else .forbidden
  | .denyAll => if context.isAuthenticated then .forbidden else .unauthenticated

/-- What the middlewares read of the scope and of the program's state: the security context that
one of them may have set, and the bans in force. -/
structure View (S : Type) where
  context : S → Option Authorization
  bans : S → BanList

/-- The decision of the policy about a request. -/
def SecurityLayer.decision (view : View S) (layer : SecurityLayer) (request : Request) (s : S) :
    Decision :=
  decideAccess (layer.accessFor request.method request.path)
    ((view.context s).getD Kernleaf.anonymous)

def SecurityLayer.handle (view : View S) (layer : SecurityLayer) (request : Request) (s : S) :
    Handling S :=
  match layer.decision view request s with
  | .allow => .next request s fun outcome s => (outcome, s)
  | .unauthenticated =>
    match layer.loginRedirect with
    | some path => .answer (.of ((Response.new 302).withHeader "location".toList path)) s
    | none => .answer unauthorized s
  | .forbidden => .answer forbidden s

/-- The response of a ban filter is the caller's own where one is set. -/
structure BanFilter (S : Type) where
  trusted : List IpAddr
  response : Option (S → Outcome × S)

variable (parseIp : Text → Option IpAddr)

def BanFilter.banned (view : View S) (filter : BanFilter S) (request : Request) (s : S) : Bool :=
  let ip := clientIp parseIp request.remoteAddr (request.header "x-forwarded-for".toList)
    filter.trusted
  (view.bans s).isBanned ip (request.header "user-agent".toList)

def BanFilter.handle (view : View S) (filter : BanFilter S) (request : Request) (s : S) :
    Handling S :=
  if filter.banned parseIp view request s then
    match filter.response with
    | some custom => .answer (custom s).1 (custom s).2
    | none => .answer bannedResponse s
  else .next request s fun outcome s => (outcome, s)

/-- The middlewares that turn requests away. -/
inductive Guard (S : Type)
  | security (layer : SecurityLayer)
  | ban (filter : BanFilter S)

def Guard.middleware (view : View S) : Guard S → Middleware S
  | security layer => ⟨layer.handle view⟩
  | ban filter => ⟨filter.handle parseIp view⟩

/-- The policy does not allow the request, or its client is banned. -/
def Guard.Refuses (view : View S) (request : Request) (s : S) : Guard S → Prop
  | security layer => layer.decision view request s ≠ .allow
  | ban filter => filter.banned parseIp view request s = true

structure App (S : Type) where
  router : Router (Handler S)
  middlewares : List (Middleware S)
  staticFiles : Option StaticRoot
  onPanic : Option (Text → Response)

/-- `CatchUnwind`, `none` where making the response of a panic panics. -/
def App.catchUnwind (app : App S) : Outcome → Option Response
  | .ok response => some response
  | .error message =>
    match app.onPanic with
    | some handler => some (handler message)
    | none => panicResponse

/-- `handle`, with the new scope in its state. -/
def App.handle (app : App S) (request : Request) (s : S) : Option Response :=
  app.catchUnwind (runNext (runHandler app.router) app.middlewares request s).1

/-- The response that `serve_connection` writes to a request, `none` where a panic takes the
connection down. -/
def App.respond (app : App S) (disk : FileSystem) (request : Request) (s : S) : Option Response :=
  match tryStatic disk app.staticFiles app.router request with
  | some response => response
  | none => app.handle request s

/-- With what the chain behind some middlewares is entered, if none of them answers. -/
def arrive : List (Middleware S) → Request → S → Option (Request × S)
  | [], request, s => some (request, s)
  | first :: rest, request, s =>
    match first.handle request s with
    | .answer _ _ => none
    | .next request s _ => arrive rest request s

theorem runNext_append (terminal : Request → S → Outcome × S) (outer inner : List (Middleware S))
    (request : Request) (s : S) :
    runNext terminal (outer ++ inner) request s =
      runNext (runNext terminal inner) outer request s := by
  induction outer generalizing request s with
  | nil => rfl
  | cons first rest ih =>
    simp only [List.cons_append, runNext]
    cases first.handle request s with
    | answer => rfl
    | next request s after => simp only [ih]

/-- Of what stands behind some middlewares, only what it makes of the request that arrives there
shows. -/
theorem runNext_congr {terminal terminal' : Request → S → Outcome × S}
    {outer : List (Middleware S)} {request request' : Request} {s s' : S}
    (h : arrive outer request s = some (request', s'))
    (heq : terminal request' s' = terminal' request' s') :
    runNext terminal outer request s = runNext terminal' outer request s := by
  induction outer generalizing request s with
  | nil =>
    cases h
    exact heq
  | cons first rest ih =>
    simp only [arrive, runNext] at h ⊢
    cases hfirst : first.handle request s with
    | answer => simp [hfirst] at h
    | next request₁ s₁ after =>
      simp only [hfirst] at h
      simp only [ih h]

/-- A guard answers the requests it refuses itself. -/
theorem Guard.answers_of_refuses {view : View S} {request : Request} {s : S} {guard : Guard S}
    (h : guard.Refuses parseIp view request s) :
    ∃ outcome s', (guard.middleware parseIp view).handle request s = .answer outcome s' := by
  cases guard with
  | security layer =>
    simp only [Guard.Refuses] at h
    simp only [Guard.middleware, SecurityLayer.handle]
    cases hd : layer.decision view request s with
    | allow => exact absurd hd h
    | unauthenticated => cases layer.loginRedirect <;> exact ⟨_, _, rfl⟩
    | forbidden => exact ⟨_, _, rfl⟩
  | ban filter =>
    simp only [Guard.Refuses] at h
    simp only [Guard.middleware, BanFilter.handle, h, if_true]
    cases filter.response <;> exact ⟨_, _, rfl⟩

/-- Behind the middlewares before it, a guard's refusal stands for all that comes after it. -/
theorem handle_refused {view : View S} {guard : Guard S} {app : App S}
    {outer inner : List (Middleware S)} {request request' : Request} {s s' s'' : S}
    {outcome : Outcome}
    (hchain : app.middlewares = outer ++ guard.middleware parseIp view :: inner)
    (harrive : arrive outer request s = some (request', s'))
    (hanswer : (guard.middleware parseIp view).handle request' s' = .answer outcome s'') :
    app.handle request s =
      app.catchUnwind (runNext (fun _ _ => (outcome, s'')) outer request s).1 := by
  rw [App.handle, hchain, runNext_append]
  congr 2
  refine runNext_congr harrive ?_
  rw [runNext, hanswer]

/-- Whatever the middlewares are, the response to a request that one of the guards refuses is that
refusal, as the middlewares before the guard pass it on. -/
def RefusalsStand (S : Type) (disk : FileSystem) (staticFiles : Option StaticRoot)
    (router : Router (Handler S)) (request : Request) : Prop :=
  ∀ (view : View S) (guard : Guard S) (outer inner : List (Middleware S))
    (onPanic : Option (Text → Response)) (request' : Request) (s s' : S),
    arrive outer request s = some (request', s') → guard.Refuses parseIp view request' s' →
    ∃ outcome s'', (guard.middleware parseIp view).handle request' s' = .answer outcome s'' ∧
      let app : App S :=
        ⟨router, outer ++ guard.middleware parseIp view :: inner, staticFiles, onPanic⟩
      app.respond disk request s =
        app.catchUnwind (runNext (fun _ _ => (outcome, s'')) outer request s).1

theorem plainResponse_status {status : UInt16} {contentType body : Text} {response : Response}
    (h : plainResponse status contentType body = some response) : response.status = status := by
  simp only [plainResponse, Option.bind_eq_bind, Option.bind_eq_some_iff] at h
  obtain ⟨r, hr, hbody⟩ := h
  unfold Response.withBody at hbody
  split at hbody
  next =>
    cases hbody
    exact withHeader_status hr
  next => cases hbody

theorem Outcome.of_eq_ok {made : Option Response} {response : Response}
    (h : Outcome.of made = .ok response) : made = some response := by
  cases made with
  | none => cases h
  | some r =>
    cases h
    rfl

theorem unauthorized_ok : ∃ response, unauthorized = .ok response ∧ response.status = 401 := by
  have hok : unauthorized.toOption.isSome = true := by decide +kernel
  cases h : unauthorized with
  | error message =>
    rw [h] at hok
    cases hok
  | ok response => exact ⟨response, rfl, plainResponse_status (Outcome.of_eq_ok h)⟩

/-- The policy that denies everything. -/
def denyAllPolicy : SecurityLayer := ⟨[], .denyAll, none⟩

/-- The policy that denies everything does not keep a static file back. -/
theorem not_stand_of_static [Inhabited S] {disk : FileSystem} {staticFiles : Option StaticRoot}
    {router : Router (Handler S)} {request : Request}
    (hfile : NamesFile disk staticFiles router request) :
    ¬ RefusalsStand parseIp S disk staticFiles router request := by
  intro hstand
  obtain ⟨served, hserved⟩ := Option.isSome_iff_exists.mp (tryStatic_isSome_iff.mpr hfile)
  -- a visitor nobody knows, and no other middleware
  let view : View S := ⟨fun _ => none, fun _ => ⟨[]⟩⟩
  have hrefuses : (Guard.security denyAllPolicy).Refuses parseIp view request default := by
    show decideAccess .denyAll Kernleaf.anonymous ≠ .allow
    decide
  obtain ⟨outcome, s', hanswer, hrespond⟩ :=
    hstand view (.security denyAllPolicy) [] [] none request default default rfl hrefuses
  obtain ⟨rfl, -⟩ : unauthorized = outcome ∧ default = s' := Handling.answer.inj hanswer
  obtain ⟨refusal, hrefusal, hstatus⟩ := unauthorized_ok
  simp only [App.respond, hserved, hrefusal, runNext, App.catchUnwind] at hrespond
  subst hrespond
  have hmem := tryStatic_status hserved
  rw [hstatus] at hmem
  exact absurd hmem (by decide)

/-- Refusals stand, whatever the middlewares are, exactly for the requests that no static file
answers. -/
theorem refusalsStand_iff [Inhabited S] (disk : FileSystem) (staticFiles : Option StaticRoot)
    (router : Router (Handler S)) (request : Request) :
    RefusalsStand parseIp S disk staticFiles router request ↔
      ¬ NamesFile disk staticFiles router request := by
  constructor
  · exact fun hstand hfile => not_stand_of_static parseIp hfile hstand
  · intro hnone view guard outer inner onPanic request' s s' harrive hrefuses
    obtain ⟨outcome, s'', hanswer⟩ := guard.answers_of_refuses parseIp hrefuses
    refine ⟨outcome, s'', hanswer, ?_⟩
    rw [← tryStatic_isSome_iff, Option.not_isSome_iff_eq_none] at hnone
    simp only [App.respond, hnone]
    exact handle_refused parseIp rfl harrive hanswer

/-- A disk whose one file is `/srv/report`. -/
def reportDisk : FileSystem where
  canonicalize path := some path
  metadata path := some ⟨path == encodeUtf8 "/srv/report".toList, 5, 0⟩

def reportRequest : Request :=
  ⟨"GET".toList, "/report".toList, .http11, {}, {}, [], [], none, none⟩

/-- A file below the static root is sent to everyone, whatever the policy says. -/
theorem not_refusalsStand : ¬ ∀ (parseIp : Text → Option IpAddr) (disk : FileSystem)
    (staticFiles : Option StaticRoot) (router : Router (Handler Unit)) (request : Request),
    RefusalsStand parseIp Unit disk staticFiles router request := by
  intro h
  refine not_stand_of_static (fun _ => none) ?_ (h _ reportDisk
    (some ⟨⟨encodeUtf8 "/srv".toList, "index.html".toList⟩, false⟩) {} reportRequest)
  have hpath : StaticFiles.resolve ⟨encodeUtf8 "/srv".toList, "index.html".toList⟩
      reportRequest.path = .ok (encodeUtf8 "/srv/report".toList) := by rfl
  have hroute : (({} : Router (Handler Unit)).find reportRequest.method reportRequest.path) =
      none := by rfl
  exact ⟨_, _, _, _, _, rfl, .inl (by decide), hroute, hpath, rfl, rfl, by decide, rfl, by decide⟩

end Kernway
