import Kernway.Fields

namespace Kernway

/-- The answers of an async source to one `next` after the other: a chunk, the end, or an error. -/
structure BodyStream where
  next : Nat → Except Unit (Option Bytes)

/-- A response body. Bytes in memory are fewer than `2 ^ 64`; a file is named by its path, its
length and the interval to send. -/
inductive Body
  | empty
  | bytes (bytes : Bytes) (fits : bytes.length < 2 ^ 64)
  | file (path : Bytes) (len : UInt64) (range : Option (UInt64 × UInt64))
  | stream (len : UInt64) (source : BodyStream)

/-- The announced length. The width of an interval wraps, as in a release build. -/
def Body.len : Body → UInt64
  | empty => 0
  | bytes b _ => UInt64.ofNat b.length
  | file _ len range => match range with
    | some (s, e) => e - s
    | none => len
  | stream len _ => len

structure Response where
  status : UInt16
  headers : Headers
  body : Body

/-- The bytes in memory. -/
def Response.bodyBytes (response : Response) : Bytes :=
  match response.body with
  | .bytes b _ => b
  | _ => []

inductive Connection
  | close
  | keepAlive
  deriving DecidableEq

def Connection.headerValue : Connection → Text
  | close => "close".toList
  | keepAlive => "keep-alive".toList

/-- The loop of `itoa` with `start` places left of its buffer, `none` where it would leave it. -/
def itoaFrom : Nat → UInt64 → Bytes → Option Bytes
  | 0, _, _ => none
  | start + 1, n, digits =>
    let digits := (48 + (n % 10).toUInt8) :: digits
    if n / 10 = 0 then some digits else itoaFrom start (n / 10) digits

/-- The decimal digits of a number, in a buffer of 20. -/
def itoa (n : UInt64) : Option Bytes := itoaFrom 20 n []

def statusTexts : List (UInt16 × Text) :=
  [(200, "OK".toList), (201, "Created".toList), (204, "No Content".toList),
    (206, "Partial Content".toList), (304, "Not Modified".toList), (400, "Bad Request".toList),
    (401, "Unauthorized".toList), (403, "Forbidden".toList), (404, "Not Found".toList),
    (405, "Method Not Allowed".toList), (416, "Range Not Satisfiable".toList),
    (422, "Unprocessable Entity".toList), (429, "Too Many Requests".toList),
    (500, "Internal Server Error".toList), (503, "Service Unavailable".toList)]

def statusText (code : UInt16) : Text := (statusTexts.lookup code).getD "Unknown".toList

/-- The headers that the transport writes itself. -/
def transportHeader (name : Text) : Bool :=
  eqIgnoreAsciiCase name "connection".toList || eqIgnoreAsciiCase name "content-length".toList

def encodeHeader (pair : Text × Text) : Bytes :=
  encodeUtf8 pair.1 ++ encodeUtf8 ": ".toList ++ encodeUtf8 pair.2 ++ encodeUtf8 "\r\n".toList

/-- The pairs of a response that the transport leaves in its head. -/
def Response.kept (response : Response) : List (Text × Text) :=
  response.headers.iter.filter fun pair => !transportHeader pair.1

def encodeHead (response : Response) (connection : Connection) (contentLength : UInt64) :
    Option Bytes := do
  let status ← itoa response.status.toUInt64
  let length ← itoa contentLength
  return encodeUtf8 "HTTP/1.1 ".toList ++ status ++ encodeUtf8 " ".toList ++
    encodeUtf8 (statusText response.status) ++ encodeUtf8 "\r\n".toList ++
    response.kept.flatMap encodeHeader ++
    encodeUtf8 "content-length: ".toList ++ length ++ encodeUtf8 "\r\nconnection: ".toList ++
    encodeUtf8 connection.headerValue ++ encodeUtf8 "\r\n\r\n".toList

def encodeResponseWith (response : Response) (connection : Connection) : Option Bytes :=
  (encodeHead response connection response.body.len).map (· ++ response.bodyBytes)

def encodeResponse (response : Response) : Option Bytes := encodeResponseWith response .close

theorem encodeUtf8_digit {d : Nat} (h : d < 10) : encodeUtf8 [d.digitChar] = [UInt8.ofNat (48 + d)] := by
  have hall : ∀ d < 10, encodeUtf8 [Nat.digitChar d] = [UInt8.ofNat (48 + d)] := by decide
  exact hall d h

theorem itoaFrom_eq {start : Nat} {n : UInt64} {digits : Bytes} (h : n.toNat < 10 ^ start)
    (hstart : 0 < start) :
    itoaFrom start n digits = some (encodeUtf8 (decimal n) ++ digits) := by
  induction start generalizing n digits with
  | zero => omega
  | succ start ih =>
    have hdiv : (n / 10).toNat = n.toNat / 10 := UInt64.toNat_div n 10
    have hdigit : 48 + (n % 10).toUInt8 = UInt8.ofNat (48 + n.toNat % 10) := by
      rw [← UInt8.toNat_inj, UInt8.toNat_add, UInt64.toNat_toUInt8, UInt64.toNat_mod,
        UInt8.toNat_ofNat']
      simp only [UInt8.reduceToNat, UInt64.reduceToNat]
      omega
    have hlast : encodeUtf8 [(n.toNat % 10).digitChar] = [48 + (n % 10).toUInt8] := by
      rw [hdigit, encodeUtf8_digit (Nat.mod_lt _ (by omega))]
    rw [itoaFrom]
    by_cases hzero : n / 10 = 0
    · have hlt : n.toNat < 10 := by
        have := congrArg UInt64.toNat hzero
        rw [hdiv] at this
        simp at this
        omega
      rw [if_pos hzero, decimal, Nat.toDigits_of_lt_base hlt, ← Nat.mod_eq_of_lt hlt, hlast]
      rfl
    · have hge : 10 ≤ n.toNat := by
        by_contra hlt
        refine hzero (UInt64.toNat_inj.mp ?_)
        rw [hdiv, Nat.div_eq_of_lt (by omega)]
        rfl
      have hstart' : 0 < start := by
        rcases Nat.eq_zero_or_pos start with rfl | hpos
        · omega
        · exact hpos
      have hlt : (n / 10).toNat < 10 ^ start := by
        rw [hdiv]
        exact Nat.div_lt_of_lt_mul (by rwa [Nat.pow_succ, Nat.mul_comm] at h)
      rw [if_neg hzero, ih hlt hstart', decimal, decimal, hdiv,
        Nat.toDigits_of_base_le (by decide) hge, encodeUtf8_append, hlast, List.append_assoc]
      rfl

theorem itoa_eq (n : UInt64) : itoa n = some (encodeUtf8 (decimal n)) := by
  have hn := n.toNat_lt_size
  rw [itoa, itoaFrom_eq (Nat.lt_of_lt_of_le hn (by decide)) (by decide), List.append_nil]

end Kernway
