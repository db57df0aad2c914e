import Kernway.FileBans
import Kernway.RedisCalls

namespace Kernway

/-- The runs of a script between whose commands others change the state: before each command it is
any that `rely` admits. Those that return a value return one that meets the postcondition. -/
def Script.Under {C R E σ α : Type} (answers : σ → C → R → σ → Prop) (rely : σ → Prop)
    (post : α → Prop) : Script C R E α → Prop
  | .done (.ok a) => post a
  | .done (.error _) => True
  | .send c next => ∀ s reply s', rely s → answers s c reply s' → (next reply).Under answers rely post

namespace Script

variable {C R E σ α β : Type} {answers : σ → C → R → σ → Prop} {rely : σ → Prop}

theorem Under.bind {post : β → Prop} {x : Script C R E α} {f : α → Script C R E β}
    (h : x.Under answers rely fun a => (f a).Under answers rely post) :
    (x >>= f).Under answers rely post := by
  induction x with
  | done result =>
    cases result with
    | ok a => exact h
    | error e => trivial
  | send c next ih =>
    intro s reply s' hs ha
    exact ih reply (h s reply s' hs ha)

theorem Under.mono {post post' : α → Prop} {x : Script C R E α} (h : x.Under answers rely post)
    (himp : ∀ a, post a → post' a) : x.Under answers rely post' := by
  induction x with
  | done result =>
    cases result with
    | ok a => exact himp a h
    | error e => trivial
  | send c next ih =>
    intro s reply s' hs ha
    exact ih reply (h s reply s' hs ha)

/-- What holds of the runs of a script that finds no interference holds of its first command. -/
theorem under_send {post : α → Prop} {c : C} {next : R → Script C R E α}
    (hone : ∀ reply, ∃ result, next reply = .done result)
    (h : ∀ s, rely s → (send c next).wp answers (fun r _ => ∀ a, r = .ok a → post a) s) :
    (send c next).Under answers rely post := by
  intro s reply s' hs ha
  obtain ⟨result, hresult⟩ := hone reply
  have hpost := h s hs reply s' ha
  rw [hresult] at hpost ⊢
  cases result with
  | ok a => exact hpost a rfl
  | error e => trivial

end Script

namespace Redis

/-- The four sets that hold the bans. -/
inductive BanSet
  | ip
  | subnet
  | userAgentExact
  | userAgentContains
  deriving DecidableEq

namespace BanSet

def key : BanSet → Text
  | ip => "kw:bans:ip".toList
  | subnet => "kw:bans:subnet".toList
  | userAgentExact => "kw:bans:ua-exact".toList
  | userAgentContains => "kw:bans:ua-contains".toList

/-- The rule that a member of a set is loaded as. -/
def rule : BanSet → Text → Option BanRule
  | ip, member => (IpAddr.parse member).map .ip
  | subnet, member => (parseCidr member).map .subnet
  | userAgentExact, member => some (.userAgentExact member)
  | userAgentContains, member => some (.userAgentContains (toAsciiLowercase member))

theorem key_inj {set set' : BanSet} (h : set.key = set'.key) : set = set' := by
  cases set <;> cases set' <;> first | rfl | exact absurd h (by decide)

theorem eq_of_rule {set set' : BanSet} {member member' : Text} {r : BanRule}
    (h : set.rule member = some r) (h' : set'.rule member' = some r) : set = set' := by
  cases set <;> cases set' <;> cases r <;> simp_all [rule]

end BanSet

/-- `RedisBanStore::load`, behind the pool's connection. -/
def loadBans : Call BanList := do
  let ips ← Connection.smembers BanSet.ip.key
  let subnets ← Connection.smembers BanSet.subnet.key
  let uaExact ← Connection.smembers BanSet.userAgentExact.key
  let uaContains ← Connection.smembers BanSet.userAgentContains.key
  let list := ips.foldl (fun list ip =>
    match IpAddr.parse ip with
    | some ip => list.addIp ip
    | none => list) ⟨[]⟩
  let list := subnets.foldl BanList.addSubnet list
  let list := uaExact.foldl BanList.addUserAgentExact list
  return uaContains.foldl BanList.addUserAgentContaining list

/-- The set that `PersistentBans` keeps a target in and the member that it writes there; it takes no
exact User-Agents and no users. -/
def memberOf : BanTarget → Option (BanSet × Text)
  | .ip ip => some (.ip, ip.display)
  | .subnet cidr => some (.subnet, cidr)
  | .userAgentContaining phrase => some (.userAgentContains, toAsciiLowercase phrase)
  | .userAgentExact _ | .user _ => none

/-- The command of a ban or an unban. -/
def commandOf : BanChange → Option Command
  | .ban target => (memberOf target).map fun m => .sadd m.1.key m.2
  | .unban target => (memberOf target).map fun m => .srem m.1.key m.2

/-- A subnet stands in Redis in one wording only. -/
def Server.Spelled (s : Server) (target : BanTarget) : Prop :=
  ∀ text, target = .subnet text → ∀ text' ∈ s.lists BanSet.subnet.key, ∀ cidr,
    parseCidr text = some cidr → parseCidr text' = some cidr → text' = text

/-- An application process: its own list, the changes that are made there and not in Redis yet, the
rest of its `load` while it starts, and the rules that other processes have changed in Redis since
that began. -/
structure BanProcess where
  bans : BanList := ⟨[]⟩
  changing : List BanChange := []
  loading : Option (Call BanList) := some loadBans
  foreign : List BanRule := []

/-- The processes that share a Redis. -/
structure BanCluster (ι : Type) where
  server : Server
  processes : ι → BanProcess

namespace BanCluster

variable {ι : Type} [DecidableEq ι]

def set (s : BanCluster ι) (i : ι) (p : BanProcess) : BanCluster ι :=
  { s with processes := fun j => if j = i then p else s.processes j }

inductive Event (ι : Type)
  | change (i : ι) (c : BanChange)
  | exec (i : ι) (c : BanChange)
  | start (i : ι)
  | load (i : ι)
  | loaded (i : ι)
  | other

/-- A step of a process or of its connection. A process may start again at any time, and then makes
nothing of what it had not sent yet. -/
inductive Step : BanCluster ι → Event ι → BanCluster ι → Prop
  | change {s : BanCluster ι} {i : ι} {c : BanChange} {cmd : Command} :
    (s.processes i).loading = none → commandOf c = some cmd →
    Step s (.change i c)
      (s.set i { s.processes i with
        bans := (s.processes i).bans.apply c.op
        changing := (s.processes i).changing ++ [c] })
  | exec {s : BanCluster ι} {i : ι} {c : BanChange} {cmd : Command} {l r : List BanChange}
    {reply : Except RedisError Value} {server : Server} :
    (s.processes i).changing = l ++ c :: r → commandOf c = some cmd →
    s.server.Answers cmd reply server →
    Step s (.exec i c)
      { server
        processes := fun j =>
          if j = i then { s.processes i with changing := l ++ r }
          else { s.processes j with foreign := c.rule.toList ++ (s.processes j).foreign } }
  | start {s : BanCluster ι} {i : ι} : Step s (.start i) (s.set i {})
  | load {s : BanCluster ι} {i : ι} {cmd : Command}
    {next : Except RedisError Value → Call BanList} {reply : Except RedisError Value}
    {server : Server} :
    (s.processes i).loading = some (.send cmd next) → s.server.Answers cmd reply server →
    Step s (.load i)
      { s.set i { s.processes i with loading := some (next reply) } with server }
  | loaded {s : BanCluster ι} {i : ι} {bans : BanList} :
    (s.processes i).loading = some (.done (.ok bans)) →
    Step s (.loaded i) (s.set i { s.processes i with bans, loading := none })
  | other {s : BanCluster ι} {server : Server} :
    (∀ set : BanSet, server.entry set.key = s.server.entry set.key) →
    Step s .other { s with server }

/-- A process does not change a rule while it still changes it, no member is too long, and a subnet
is lifted in the words that it was banned in. -/
def Orderly (s : BanCluster ι) : Event ι → Prop
  | .change i c => (∀ cmd, commandOf c = some cmd → cmd.Short) ∧
    ∀ c' ∈ (s.processes i).changing, ∀ rule, c.rule = some rule → c'.rule ≠ some rule
  | .exec _ (.unban target) => s.server.Spelled target
  | _ => True

end BanCluster

/-- Processes that are about to start, over a Redis without bans. -/
def banClusterSystem (ι : Type) [DecidableEq ι] : System (BanCluster ι) (BanCluster.Event ι) where
  start s := (∀ set : BanSet, s.server.entry set.key = none) ∧ ∀ i, s.processes i = {}
  step := BanCluster.Step

/-- A rule that some member of a ban set is read as. -/
def Server.Holds (s : Server) (r : BanRule) : Prop :=
  ∃ (set : BanSet) (member : Text), member ∈ s.lists set.key ∧ set.rule member = some r

section Loading

theorem mem_foldl_rules (set : BanSet) (step : BanList → Text → BanList)
    (hstep : ∀ list member, step list member = ((set.rule member).map list.add).getD list)
    (members : List Text) (list : BanList) (r : BanRule) :
    r ∈ (members.foldl step list).rules ↔
      r ∈ list.rules ∨ ∃ member ∈ members, set.rule member = some r := by
  induction members generalizing list with
  | nil => simp
  | cons member members ih =>
    rw [List.foldl_cons, ih, hstep, List.exists_mem_cons_iff]
    cases set.rule member with
    | none => simp
    | some made =>
      rw [Option.map_some, Option.getD_some, mem_add, Option.some.injEq, or_assoc, eq_comm]

variable {b : Prop} {r : BanRule}

/-- A set that a rule can be a member of is listed with it just where `b` holds. -/
theorem under_smembers (b : Prop) (r : BanRule) (set : BanSet) :
    (Connection.smembers set.key).Under Server.Answers (fun s => s.Holds r ↔ b) fun members =>
      (b → ∃ (set : BanSet) (member : Text), set.rule member = some r) ∧
        ((∃ member, set.rule member = some r) →
          ((∃ member ∈ members, set.rule member = some r) ↔ b)) := by
  refine Script.under_send (fun reply => ?_) fun s hs => ?_
  · cases reply with
    | error e => exact ⟨_, rfl⟩
    | ok value => cases value <;> exact ⟨_, rfl⟩
  · refine Connection.wp_smembers (fun members s' _ _ hperm _ result hresult => ?_)
      fun _ _ _ _ _ hresult => nomatch hresult
    cases hresult
    refine ⟨fun hb => ?_, fun ⟨member, hmember⟩ => ?_⟩
    · obtain ⟨set, member, _, hrule⟩ := hs.mpr hb
      exact ⟨set, member, hrule⟩
    · rw [← hs]
      constructor
      · rintro ⟨member', hmem, hrule⟩
        exact ⟨set, member', hperm.mem_iff.mp hmem, hrule⟩
      · rintro ⟨set', member', hmem, hrule⟩
        obtain rfl := BanSet.eq_of_rule hrule hmember
        exact ⟨member', hperm.mem_iff.mpr hmem, hrule⟩

/-- While others leave a rule as it is, `load` finds it just where Redis has it. -/
theorem under_loadBans (b : Prop) (r : BanRule) :
    loadBans.Under Server.Answers (fun s => s.Holds r ↔ b) fun bans => r ∈ bans.rules ↔ b := by
  refine .bind ((under_smembers b r .ip).mono fun ips hips => ?_)
  refine .bind ((under_smembers b r .subnet).mono fun subnets hsubnets => ?_)
  refine .bind ((under_smembers b r .userAgentExact).mono fun agents hagents => ?_)
  refine .bind ((under_smembers b r .userAgentContains).mono fun phrases hphrases => ?_)
  have hip := mem_foldl_rules .ip
    (fun list ip =>
      match IpAddr.parse ip with
      | some ip => list.addIp ip
      | none => list)
    (fun list member => by
      unfold BanSet.rule
      dsimp only
      cases IpAddr.parse member <;> rfl) ips ⟨[]⟩ r
  have hsubnet := mem_foldl_rules .subnet BanList.addSubnet fun list member => by
    unfold BanSet.rule BanList.addSubnet
    dsimp only
    cases parseCidr member <;> rfl
  have hagent := mem_foldl_rules .userAgentExact BanList.addUserAgentExact fun _ _ => rfl
  have hphrase := mem_foldl_rules .userAgentContains BanList.addUserAgentContaining fun _ _ => rfl
  show r ∈ BanList.rules _ ↔ b
  rw [hphrase, hagent, hsubnet, hip]
  constructor
  · rintro ((((hnil | ⟨member, hmem, hrule⟩) | ⟨member, hmem, hrule⟩) | ⟨member, hmem, hrule⟩) |
      ⟨member, hmem, hrule⟩)
    · cases hnil
    · exact (hips.2 ⟨member, hrule⟩).mp ⟨member, hmem, hrule⟩
    · exact (hsubnets.2 ⟨member, hrule⟩).mp ⟨member, hmem, hrule⟩
    · exact (hagents.2 ⟨member, hrule⟩).mp ⟨member, hmem, hrule⟩
    · exact (hphrases.2 ⟨member, hrule⟩).mp ⟨member, hmem, hrule⟩
  · intro hb
    obtain ⟨set, member, hrule⟩ := hips.1 hb
    cases set with
    | ip => exact .inl (.inl (.inl (.inr ((hips.2 ⟨member, hrule⟩).mpr hb))))
    | subnet => exact .inl (.inl (.inr ((hsubnets.2 ⟨member, hrule⟩).mpr hb)))
    | userAgentExact => exact .inl (.inr ((hagents.2 ⟨member, hrule⟩).mpr hb))
    | userAgentContains => exact .inr ((hphrases.2 ⟨member, hrule⟩).mpr hb)

end Loading

/-- What the ban sets are kept as: sets, addresses as they are displayed, phrases in lower case. -/
structure Server.BanSets (s : Server) : Prop where
  isSet : ∀ set : BanSet, s.IsSet set.key
  display : ∀ member ∈ s.lists BanSet.ip.key, ∃ ip : IpAddr, member = ip.display
  lower : ∀ member ∈ s.lists BanSet.userAgentContains.key, toAsciiLowercase member = member

section Commands

variable {s s' : Server} {set : BanSet} {member : Text} {target : BanTarget}
  {reply : Except RedisError Value}

theorem rule_member (h : memberOf target = some (set, member)) : set.rule member = target.rule := by
  cases target with
  | ip ip =>
    cases h
    unfold BanSet.rule
    dsimp only
    rw [IpAddr.parse_display]
    rfl
  | subnet cidr =>
    cases h
    rfl
  | userAgentContaining phrase =>
    cases h
    unfold BanSet.rule BanTarget.rule
    dsimp only
    rw [toAsciiLowercase_idem]
  | userAgentExact | user => cases h

theorem Server.BanSets.eq_member (h : s.BanSets) (htarget : memberOf target = some (set, member))
    (hspelled : s.Spelled target) {member' : Text} (hmem : member' ∈ s.lists set.key) {r : BanRule}
    (hrule' : set.rule member' = some r) (hrule : target.rule = some r) : member' = member := by
  rw [← rule_member htarget] at hrule
  cases target with
  | ip ip =>
    cases htarget
    obtain ⟨ip', rfl⟩ := h.display member' hmem
    unfold BanSet.rule at hrule hrule'
    dsimp only at hrule hrule'
    rw [IpAddr.parse_display] at hrule hrule'
    cases hrule'
    cases hrule
    rfl
  | subnet text =>
    cases htarget
    obtain ⟨cidr, hcidr, rfl⟩ := Option.map_eq_some_iff.mp hrule
    obtain ⟨cidr', hcidr', heq⟩ := Option.map_eq_some_iff.mp hrule'
    cases heq
    exact hspelled _ rfl member' hmem cidr hcidr hcidr'
  | userAgentContaining phrase =>
    cases htarget
    unfold BanSet.rule at hrule hrule'
    dsimp only at hrule hrule'
    rw [h.lower member' hmem] at hrule'
    rw [toAsciiLowercase_idem] at hrule
    cases hrule'
    cases hrule
    rfl
  | userAgentExact | user => cases htarget

theorem lists_sadd (hset : s.IsSet set.key) (hshort : (Command.sadd set.key member).Short)
    (h : s.Answers (.sadd set.key member) reply s') :
    s'.IsSet set.key ∧ (∀ x, x ∈ s'.lists set.key ↔ x = member ∨ x ∈ s.lists set.key) ∧
      ∀ key, key ≠ set.key → s'.entry key = s.entry key := by
  have hpost : (Connection.sadd set.key member).wp Server.Answers (fun _ s' => s'.IsSet set.key ∧
    (∀ x, x ∈ s'.lists set.key ↔ x = member ∨ x ∈ s.lists set.key) ∧
      ∀ key, key ≠ set.key → s'.entry key = s.entry key) s := Connection.wp_sadd hshort hset
    fun ms s' hms hleft => ⟨fun e he => ?_, fun x => ?_, fun key hkey => ?_⟩
  · have hreply := hpost reply s' h
    cases reply <;> exact hreply
  · rw [hleft.entry_self] at he
    cases he
    exact ⟨ms, rfl⟩
  · rw [hleft.lists, if_pos rfl]
    exact hms x
  · rw [hleft.2, if_neg hkey]

theorem lists_srem (hset : s.IsSet set.key) (hshort : (Command.srem set.key member).Short)
    (h : s.Answers (.srem set.key member) reply s') :
    s'.IsSet set.key ∧ (∀ x, x ∈ s'.lists set.key ↔ x ∈ s.lists set.key ∧ x ≠ member) ∧
      ∀ key, key ≠ set.key → s'.entry key = s.entry key := by
  have hpost : (Connection.srem set.key member).wp Server.Answers (fun _ s' => s'.IsSet set.key ∧
    (∀ x, x ∈ s'.lists set.key ↔ x ∈ s.lists set.key ∧ x ≠ member) ∧
      ∀ key, key ≠ set.key → s'.entry key = s.entry key) s := Connection.wp_srem hshort hset
    fun entry s' hms hentry hleft => ⟨fun e he => ?_, fun x => ?_, fun key hkey => ?_⟩
  · have hreply := hpost reply s' h
    cases reply <;> exact hreply
  · rw [hleft.entry_self] at he
    obtain ⟨ms, rfl⟩ := hentry e he
    exact ⟨ms, rfl⟩
  · rw [hleft.lists, if_pos rfl]
    exact hms x
  · rw [hleft.2, if_neg hkey]

theorem Server.BanSets.left (h : s.BanSets) (htarget : memberOf target = some (set, member))
    (hset : s'.IsSet set.key) (hlists : ∀ x ∈ s'.lists set.key, x = member ∨ x ∈ s.lists set.key)
    (hother : ∀ key, key ≠ set.key → s'.entry key = s.entry key) : s'.BanSets := by
  have hkept : ∀ {set'}, set' ≠ set → s'.entry set'.key = s.entry set'.key :=
    fun hne => hother _ fun heq => hne (BanSet.key_inj heq)
  have hmem : ∀ {set'} {x}, x ∈ s'.lists set'.key →
      set' = set ∧ x = member ∨ x ∈ s.lists set'.key := by
    intro set' x hx
    by_cases heq : set' = set
    · subst heq
      exact (hlists x hx).imp_left fun hx => ⟨rfl, hx⟩
    · refine .inr ?_
      unfold Server.lists at hx ⊢
      rwa [hkept heq] at hx
  refine ⟨fun set' => ?_, fun x hx => ?_, fun x hx => ?_⟩
  · by_cases heq : set' = set
    · rw [heq]
      exact hset
    · unfold Server.IsSet
      rw [hkept heq]
      exact h.isSet set'
  · rcases hmem hx with ⟨rfl, rfl⟩ | hold
    · cases target with
      | ip ip =>
        cases htarget
        exact ⟨ip, rfl⟩
      | subnet | userAgentContaining | userAgentExact | user => cases htarget
    · exact h.display x hold
  · rcases hmem hx with ⟨rfl, rfl⟩ | hold
    · cases target with
      | userAgentContaining phrase =>
        cases htarget
        exact toAsciiLowercase_idem phrase
      | ip | subnet | userAgentExact | user => cases htarget
    · exact h.lower x hold

/-- A command of a ban or an unban does to the rules in Redis what the change does to a list. -/
theorem Server.BanSets.exec (h : s.BanSets) {c : BanChange} {cmd : Command}
    (hcmd : commandOf c = some cmd) (hshort : cmd.Short)
    (hspelled : ∀ target, c = .unban target → s.Spelled target) (hans : s.Answers cmd reply s') :
    s'.BanSets ∧ ∀ r, s'.Holds r ↔
      c.rule = some r ∧ (∃ target, c = .ban target) ∨ c.rule ≠ some r ∧ s.Holds r := by
  have hkept : ∀ {set set' : BanSet}, (∀ key, key ≠ set.key → s'.entry key = s.entry key) →
      set' ≠ set → s'.lists set'.key = s.lists set'.key :=
    fun hother hne => congrArg membersOf (hother _ fun heq => hne (BanSet.key_inj heq))
  cases c with
  | ban target =>
    obtain ⟨⟨set, member⟩, htarget, rfl⟩ := Option.map_eq_some_iff.mp hcmd
    obtain ⟨hset, hlists, hother⟩ := lists_sadd (h.isSet set) hshort hans
    have hmember := rule_member htarget
    refine ⟨h.left htarget hset (fun x hx => (hlists x).mp hx) hother, fun r => ⟨?_, ?_⟩⟩
    · rintro ⟨set', x, hx, hr⟩
      by_cases hrule : target.rule = some r
      · exact .inl ⟨hrule, target, rfl⟩
      · refine .inr ⟨hrule, set', x, ?_, hr⟩
        by_cases heq : set' = set
        · subst heq
          rcases (hlists x).mp hx with rfl | hold
          · exact absurd (hmember.symm.trans hr) hrule
          · exact hold
        · rwa [hkept hother heq] at hx
    · rintro (⟨hrule, -⟩ | ⟨-, set', x, hx, hr⟩)
      · exact ⟨set, member, (hlists member).mpr (.inl rfl), hmember.trans hrule⟩
      · refine ⟨set', x, ?_, hr⟩
        by_cases heq : set' = set
        · subst heq
          exact (hlists x).mpr (.inr hx)
        · rwa [hkept hother heq]
  | unban target =>
    obtain ⟨⟨set, member⟩, htarget, rfl⟩ := Option.map_eq_some_iff.mp hcmd
    obtain ⟨hset, hlists, hother⟩ := lists_srem (h.isSet set) hshort hans
    have hmember := rule_member htarget
    refine ⟨h.left htarget hset (fun x hx => .inr ((hlists x).mp hx).1) hother,
      fun r => ⟨?_, ?_⟩⟩
    · rintro ⟨set', x, hx, hr⟩
      by_cases heq : set' = set
      · subst heq
        obtain ⟨hold, hne⟩ := (hlists x).mp hx
        refine .inr ⟨fun hrule => hne ?_, set', x, hold, hr⟩
        exact h.eq_member htarget (hspelled target rfl) hold hr hrule
      · refine .inr ⟨fun hrule => heq (BanSet.eq_of_rule hr (hmember.trans hrule)), set', x, ?_, hr⟩
        rwa [hkept hother heq] at hx
    · rintro (⟨-, _, hban⟩ | ⟨hrule, set', x, hx, hr⟩)
      · cases hban
      · refine ⟨set', x, ?_, hr⟩
        by_cases heq : set' = set
        · subst heq
          refine (hlists x).mpr ⟨hx, ?_⟩
          rintro rfl
          exact hrule (hmember.symm.trans hr)
        · rwa [hkept hother heq]

/-- A server that holds the same at the four keys holds the same rules. -/
theorem Server.BanSets.same (h : s.BanSets)
    (hsame : ∀ set : BanSet, s'.entry set.key = s.entry set.key) :
    s'.BanSets ∧ ∀ r, s'.Holds r ↔ s.Holds r := by
  have hlists : ∀ set : BanSet, s'.lists set.key = s.lists set.key :=
    fun set => congrArg membersOf (hsame set)
  refine ⟨⟨fun set => ?_, ?_, ?_⟩, fun r => ?_⟩
  · unfold Server.IsSet
    rw [hsame]
    exact h.isSet set
  · rw [hlists]
    exact h.display
  · rw [hlists]
    exact h.lower
  · unfold Server.Holds
    simp only [hlists]

theorem entry_smembers {key : Text} (h : s.Answers (.smembers key) reply s') (k : Text) :
    s'.entry k = s.entry k := by
  have hpost : (Connection.smembers key).wp Server.Answers
      (fun _ s' => s'.entry k = s.entry k) s :=
    Connection.wp_smembers (fun _ _ _ _ _ hleft => hleft.entry_same k)
      fun _ _ _ hleft => hleft.entry_same k
  have hreply := hpost reply s' h
  cases reply with
  | error e => exact hreply
  | ok value => cases value <;> exact hreply

end Commands

/-- What a command of `load` is. -/
def Lists (c : Command) : Prop := ∃ set : BanSet, c = .smembers set.key

theorem sends_loadBans : loadBans.Sends Lists := by
  have hread : ∀ set : BanSet, (Connection.smembers set.key).Sends Lists := by
    refine fun set => ⟨⟨set, rfl⟩, fun reply => ?_⟩
    cases reply with
    | error e => trivial
    | ok value => cases value <;> trivial
  exact Script.sends_bind (hread .ip) fun _ => Script.sends_bind (hread .subnet) fun _ =>
    Script.sends_bind (hread .userAgentExact) fun _ =>
      Script.sends_bind (hread .userAgentContains) fun _ => trivial

/-- What a process keeps: its changes show in its list; started, it agrees with the server on every
rule that nobody changes; starting, it will, of every rule that nobody else changes. -/
structure BanProcess.Sound (server : Server) (p : BanProcess) : Prop where
  short : ∀ c ∈ p.changing, ∀ cmd, commandOf c = some cmd → cmd.Short
  changing : ∀ c ∈ p.changing, ∀ r, c.rule = some r →
    (r ∈ p.bans.rules ↔ ∃ target, c = .ban target)
  agrees : p.loading = none → ∀ r, r ∉ p.foreign → (∀ c ∈ p.changing, c.rule ≠ some r) →
    (r ∈ p.bans.rules ↔ server.Holds r)
  loading : ∀ x, p.loading = some x → p.changing = [] ∧ x.Sends Lists ∧ ∀ r, r ∉ p.foreign →
    x.Under Server.Answers (fun s => s.Holds r ↔ server.Holds r)
      fun bans => r ∈ bans.rules ↔ server.Holds r

namespace BanProcess

variable {server server' : Server} {p : BanProcess}

/-- A process that starts. -/
theorem sound_start (server : Server) : ({} : BanProcess).Sound server where
  short := nofun
  changing := nofun
  agrees := nofun
  loading := by
    intro x hx
    cases hx
    exact ⟨rfl, sends_loadBans, fun r _ => under_loadBans (server.Holds r) r⟩

theorem Sound.foreign (h : p.Sound server) {foreign : List BanRule}
    (hforeign : ∀ r, r ∉ foreign → r ∉ p.foreign ∧ (server'.Holds r ↔ server.Holds r)) :
    Sound server' { p with foreign } where
  short := h.short
  changing := h.changing
  agrees hloading r hr hidle :=
    (h.agrees hloading r (hforeign r hr).1 hidle).trans (hforeign r hr).2.symm
  loading x hx := by
    obtain ⟨hchanging, hsends, hunder⟩ := h.loading x hx
    refine ⟨hchanging, hsends, fun r hr => ?_⟩
    rw [propext (hforeign r hr).2]
    exact hunder r (hforeign r hr).1

theorem Sound.change (h : p.Sound server) (hloading : p.loading = none) {c : BanChange}
    (hshort : ∀ cmd, commandOf c = some cmd → cmd.Short)
    (hapart : ∀ c' ∈ p.changing, ∀ rule, c.rule = some rule → c'.rule ≠ some rule) :
    Sound server { p with bans := p.bans.apply c.op, changing := p.changing ++ [c] } where
  short := List.forall_mem_append.mpr ⟨h.short, List.forall_mem_singleton.mpr hshort⟩
  changing := by
    refine List.forall_mem_append.mpr ⟨fun c' hc' r hr => ?_, List.forall_mem_singleton.mpr ?_⟩
    · have hne : c.rule ≠ some r := fun hrule => hapart c' hc' r hrule hr
      rw [FileBans.mem_apply_op, ← h.changing c' hc' r hr]
      simp [hne]
    · intro r hr
      rw [FileBans.mem_apply_op]
      simp [hr]
  agrees _ r hr hidle := by
    obtain ⟨hold, hnew⟩ := List.forall_mem_append.mp hidle
    rw [← h.agrees hloading r hr hold, FileBans.mem_apply_op]
    simp [hnew c List.mem_cons_self]
  loading x hx := absurd (hloading.symm.trans hx) nofun

theorem Sound.exec (h : p.Sound server) {c : BanChange} {l r : List BanChange}
    (hchanging : p.changing = l ++ c :: r)
    (hholds : ∀ r, server'.Holds r ↔
      c.rule = some r ∧ (∃ target, c = .ban target) ∨ c.rule ≠ some r ∧ server.Holds r) :
    Sound server' { p with changing := l ++ r } := by
  have hmem : ∀ c' ∈ l ++ r, c' ∈ p.changing := by
    intro c' hc'
    rw [hchanging]
    rcases List.mem_append.mp hc' with hl | hr
    · exact List.mem_append_left _ hl
    · exact List.mem_append_right _ (List.mem_cons_of_mem c hr)
  have hc : c ∈ p.changing := by
    rw [hchanging]
    exact List.mem_append_right _ List.mem_cons_self
  refine ⟨fun c' hc' => h.short c' (hmem c' hc'), fun c' hc' => h.changing c' (hmem c' hc'),
    fun hloading rule hrule hidle => ?_, fun x hx => ?_⟩
  · rw [hholds]
    by_cases heq : c.rule = some rule
    · rw [h.changing c hc rule heq]
      simp [heq]
    · rw [h.agrees hloading rule hrule fun c' hc' => ?_]
      · simp [heq]
      · rw [hchanging] at hc'
        rcases List.mem_append.mp hc' with hl | hr
        · exact hidle c' (List.mem_append_left _ hl)
        · rcases List.mem_cons.mp hr with rfl | hr
          · exact heq
          · exact hidle c' (List.mem_append_right _ hr)
  · rw [(h.loading x hx).1] at hc
    cases hc

theorem Sound.load (h : p.Sound server) {cmd : Command}
    {next : Except RedisError Value → Call BanList} {reply : Except RedisError Value}
    (hloading : p.loading = some (.send cmd next)) (hans : server.Answers cmd reply server')
    (hsame : ∀ r, server'.Holds r ↔ server.Holds r) :
    Sound server' { p with loading := some (next reply) } := by
  obtain ⟨hchanging, ⟨-, hsends⟩, hunder⟩ := h.loading _ hloading
  refine ⟨h.short, h.changing, nofun, fun x hx => ?_⟩
  cases hx
  refine ⟨hchanging, hsends reply, fun r hr => ?_⟩
  rw [propext (hsame r)]
  exact hunder r hr server reply server' Iff.rfl hans

theorem Sound.loaded (h : p.Sound server) {bans : BanList}
    (hloading : p.loading = some (.done (.ok bans))) :
    Sound server { p with bans, loading := none } := by
  obtain ⟨hchanging, -, hunder⟩ := h.loading _ hloading
  refine ⟨h.short, fun c hc => ?_, fun _ r hr _ => hunder r hr, nofun⟩
  rw [hchanging] at hc
  cases hc

end BanProcess

namespace BanCluster

variable {ι : Type} [DecidableEq ι] {s s' : BanCluster ι}

structure Sound (s : BanCluster ι) : Prop where
  sets : s.server.BanSets
  process : ∀ i, (s.processes i).Sound s.server

theorem Sound.set (h : s.Sound) {i : ι} {p : BanProcess} (hp : p.Sound s.server) :
    (s.set i p).Sound := by
  refine ⟨h.sets, fun j => ?_⟩
  show (if j = i then p else s.processes j).Sound s.server
  split
  next => exact hp
  next => exact h.process j

theorem Sound.step (h : s.Sound) {e : Event ι} (hok : s.Orderly e) (hstep : Step s e s') :
    s'.Sound := by
  cases hstep with
  | @change i c cmd hloading hcmd => exact h.set ((h.process i).change hloading hok.1 hok.2)
  | @exec i c cmd l r reply server hchanging hcmd hans =>
    have hc : c ∈ (s.processes i).changing := by
      rw [hchanging]
      exact List.mem_append_right _ List.mem_cons_self
    have hspelled : ∀ target, c = .unban target → s.server.Spelled target := by
      rintro target rfl
      exact hok
    obtain ⟨hsets, hholds⟩ := h.sets.exec hcmd ((h.process i).short c hc cmd hcmd) hspelled hans
    refine ⟨hsets, fun j => ?_⟩
    dsimp only
    split
    next => exact (h.process i).exec hchanging hholds
    next =>
      refine (h.process j).foreign fun r hr => ?_
      rw [List.mem_append, not_or, Option.mem_toList] at hr
      refine ⟨hr.2, ?_⟩
      rw [hholds]
      simp [hr.1]
  | start => exact h.set (BanProcess.sound_start s.server)
  | @load i cmd next reply server hloading hans =>
    obtain ⟨-, ⟨⟨set, rfl⟩, -⟩, -⟩ := (h.process i).loading _ hloading
    obtain ⟨hsets, hsame⟩ := h.sets.same fun set' => entry_smembers hans set'.key
    refine ⟨hsets, fun j => ?_⟩
    show (if j = i then _ else s.processes j).Sound server
    split
    next => exact (h.process i).load hloading hans hsame
    next => exact (h.process j).foreign fun r hr => ⟨hr, hsame r⟩
  | @loaded i bans hloading => exact h.set ((h.process i).loaded hloading)
  | @other server hentries =>
    obtain ⟨hsets, hsame⟩ := h.sets.same hentries
    exact ⟨hsets, fun j => (h.process j).foreign fun r hr => ⟨hr, hsame r⟩⟩

end BanCluster

end Redis

end Kernway
