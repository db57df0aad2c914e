import Kernway.Sha256
import Mathlib.Data.List.FinRange

namespace Kernway

/-- The P-array and the S-boxes. -/
structure Blowfish where
  p : Vector UInt32 18
  s : Vector (Vector UInt32 256) 4

/-- Bytes that are read over and over. -/
abbrev KeyStream := {data : Bytes // data ≠ []}

abbrev Salt := {data : Bytes // data.length = 16}

def Salt.stream (salt : Salt) : KeyStream := ⟨salt.1, List.ne_nil_of_length_pos (by rw [salt.2]; decide)⟩

def KeyStream.byte (data : KeyStream) (off : Nat) : UInt8 :=
  data.1.get ⟨off % data.1.length, Nat.mod_lt off (List.length_pos_iff.mpr data.2)⟩

/-- `stream_word`: the word and the offset behind it. -/
def streamWord (data : KeyStream) (off : Nat) : UInt32 × Nat :=
  (Sha256.fromBe [data.byte off, data.byte (off + 1), data.byte (off + 2), data.byte (off + 3)],
    off + 4)

namespace Blowfish

section Seed

/-- The loop of `atan_inv`. The terms go down, so that no difference falls below zero. -/
def atanTerms (x : Nat) (hx : 1 < x) (power total k : Nat) (add : Bool) : Nat :=
  if power = 0 then total
  else
    let term := power / (2 * k + 1)
    atanTerms x hx (power / (x * x)) (if add then total + term else total - term) (k + 1) (!add)
termination_by power
decreasing_by
  have hsquare := Nat.mul_lt_mul'' hx hx
  exact Nat.div_lt_self (by omega) hsquare

/-- `atan_inv`: the scaled arc tangent of `1 / x`. -/
def atanInv (x : Nat) (hx : 1 < x) (scale : Nat) : Nat := atanTerms x hx (scale / x) 0 0 true

def words : Nat := 18 + 4 * 256

def hexDigits : Nat := words * 8

def guard : Nat := 48

def hexVal (c : Char) : UInt32 :=
  if '0' ≤ c ∧ c ≤ '9' then UInt32.ofNat (c.toNat - '0'.toNat)
  else if 'a' ≤ c ∧ c ≤ 'f' then UInt32.ofNat (c.toNat - 'a'.toNat + 10)
  else 0

/-- The digits of π behind the point, by Machin's formula. -/
def frac : List Char :=
  let scale := 2 ^ (4 * (hexDigits + guard))
  let pi := 16 * atanInv 5 (by decide) scale - 4 * atanInv 239 (by decide) scale
  ((Nat.toDigits 16 pi).drop 1).take hexDigits

def piWord (w : Nat) : UInt32 :=
  ((frac.drop (8 * w)).take 8).foldl (fun v c => (v <<< 4) ||| hexVal c) 0

/-- `compute_pi_state`. -/
def fromPi : Blowfish where
  p := Vector.ofFn fun i => piWord i
  s := Vector.ofFn fun bi => Vector.ofFn fun k => piWord (18 + bi * 256 + k)

end Seed

def f (b : Blowfish) (x : UInt32) : UInt32 :=
  let s := fun (i : Fin 4) (n : UInt32) => (b.s.get i).get (x >>> n).toUInt8.toFin
  ((s 0 24 + s 1 16) ^^^ s 2 8) + s 3 0

def round (b : Blowfish) (v : UInt32 × UInt32) (i : Fin 16) : UInt32 × UInt32 :=
  let xl := v.1 ^^^ b.p[i]
  (v.2 ^^^ b.f xl, xl)

def encipher (b : Blowfish) (v : UInt32 × UInt32) : UInt32 × UInt32 :=
  -- the last round's swap is undone
  let (xr, xl) := (List.finRange 16).foldl b.round v
  (xl ^^^ b.p[17], xr ^^^ b.p[16])

/-- The state of the loops of `expand`: the chained block and the offset into the salt. -/
structure Schedule where
  cipher : Blowfish
  block : UInt32 × UInt32
  sj : Nat

def Schedule.next (salt : KeyStream) (v : Schedule)
    (put : Blowfish → UInt32 → UInt32 → Blowfish) : Schedule :=
  let (w, sj) := streamWord salt v.sj
  let (w', sj) := streamWord salt sj
  let (l, r) := v.cipher.encipher (v.block.1 ^^^ w, v.block.2 ^^^ w')
  ⟨put v.cipher l r, (l, r), sj⟩

def setP (i : Fin 9) (b : Blowfish) (l r : UInt32) : Blowfish :=
  { b with p := (b.p.set (2 * i) l).set (2 * i + 1) r }

def setS (si : Fin 4) (k : Fin 128) (b : Blowfish) (l r : UInt32) : Blowfish :=
  { b with s := b.s.set si ((b.s[si].set (2 * k) l).set (2 * k + 1) r) }

def mixKey (key : KeyStream) (v : Blowfish × Nat) (i : Fin 18) : Blowfish × Nat :=
  let (w, kj) := streamWord key v.2
  ({ v.1 with p := v.1.p.set i (v.1.p[i] ^^^ w) }, kj)

def expand (b : Blowfish) (salt key : KeyStream) : Blowfish :=
  let b := ((List.finRange 18).foldl (mixKey key) (b, 0)).1
  let v := (List.finRange 9).foldl (fun v i => v.next salt (setP i)) (⟨b, (0, 0), 0⟩ : Schedule)
  ((List.finRange 4).foldl (fun v si =>
    (List.finRange 128).foldl (fun v k => v.next salt (setS si k)) v) v).cipher

end Blowfish

section Hash

/-- The six words of the magic text, a block of two at a time. -/
def magic : Vector (UInt32 × UInt32) 3 :=
  #v[(0x4f727068, 0x65616e42), (0x65686f6c, 0x64657253), (0x63727944, 0x6f756274)]

def zeroSalt : Salt := ⟨List.replicate 16 0, List.length_replicate⟩

def bcryptRaw (cost : UInt32) (salt : Salt) (key : KeyStream) : Bytes :=
  let rekey := fun b : Blowfish =>
    (b.expand zeroSalt.stream key).expand zeroSalt.stream salt.stream
  let state := Nat.repeat rekey (2 ^ cost.toNat) (Blowfish.fromPi.expand salt.stream key)
  let cdata := Nat.repeat (Vector.map state.encipher) 64 magic
  (cdata.toList.flatMap fun v => Sha256.beBytes v.1 ++ Sha256.beBytes v.2).take 23

theorem length_blocks (cdata : List (UInt32 × UInt32)) :
    (cdata.flatMap fun v => Sha256.beBytes v.1 ++ Sha256.beBytes v.2).length =
      8 * cdata.length := by
  induction cdata with
  | nil => rfl
  | cons v cdata ih =>
    have hv : (Sha256.beBytes v.1 ++ Sha256.beBytes v.2).length = 8 := rfl
    rw [List.flatMap_cons, List.length_append, hv, ih, List.length_cons]
    omega

theorem length_bcryptRaw (cost : UInt32) (salt : Salt) (key : KeyStream) :
    (bcryptRaw cost salt key).length = 23 := by
  unfold bcryptRaw
  dsimp only
  rw [List.length_take, length_blocks, Vector.length_toList]
  rfl

end Hash

end Kernway
