import Mathlib.Algebra.Group.Nat.Defs
import Mathlib.Data.List.Basic

namespace Kernway

/-- The low `k` bytes of a number, least significant first. -/
def toLe : Nat → Nat → List UInt8
  | 0, _ => []
  | k + 1, n => UInt8.ofNat n :: toLe k (n / 256)

def fromLe : List UInt8 → Nat
  | [] => 0
  | b :: bs => b.toNat + 256 * fromLe bs

@[simp] theorem length_toLe (k n : Nat) : (toLe k n).length = k := by
  induction k generalizing n with
  | zero => rfl
  | succ k ih => rw [toLe, List.length_cons, ih]

theorem fromLe_toLe {k n : Nat} (h : n < 256 ^ k) : fromLe (toLe k n) = n := by
  induction k generalizing n with
  | zero => rw [Nat.pow_zero] at h; simp only [toLe, fromLe]; omega
  | succ k ih =>
    have hd : n / 256 < 256 ^ k := by
      rw [Nat.div_lt_iff_lt_mul (by omega), ← Nat.pow_succ]
      exact h
    simp only [toLe, fromLe, ih hd, UInt8.toNat_ofNat']
    omega

theorem fromLe_lt (bs : List UInt8) : fromLe bs < 256 ^ bs.length := by
  induction bs with
  | nil => decide
  | cons b bs ih =>
    have := b.toNat_lt
    rw [fromLe, List.length_cons, Nat.pow_succ]
    omega

theorem toLe_fromLe (bs : List UInt8) : toLe bs.length (fromLe bs) = bs := by
  induction bs with
  | nil => rfl
  | cons b bs ih =>
    have hb := b.toNat_lt
    have hhead : UInt8.ofNat (b.toNat + 256 * fromLe bs) = b := by
      apply UInt8.toNat_inj.mp
      rw [UInt8.toNat_ofNat']
      omega
    have htail : (b.toNat + 256 * fromLe bs) / 256 = fromLe bs := by omega
    rw [fromLe, List.length_cons, toLe, hhead, htail, ih]

/-- A record behind its length, a little-endian `u32`. -/
def frame (record : List UInt8) : List UInt8 := toLe 4 record.length ++ record

def Framable (record : List UInt8) : Prop := record.length < 2 ^ 32

/-- The record at the front of the bytes, and the bytes after it, where it is all there. -/
def takeFrame (bytes : List UInt8) : Option (List UInt8 × List UInt8) :=
  if bytes.length < 4 then none
  else
    let len := fromLe (bytes.take 4)
    let body := bytes.drop 4
    if body.length < len then none else some (body.take len, body.drop len)

theorem takeFrame_length {bytes record rest : List UInt8}
    (h : takeFrame bytes = some (record, rest)) :
    bytes.length = 4 + record.length + rest.length := by
  simp only [takeFrame] at h
  split at h
  next => simp at h
  next h4 =>
    split at h
    next => simp at h
    next hlen =>
      obtain ⟨rfl, rfl⟩ := Prod.mk.inj (Option.some.inj h)
      simp only [List.length_take, List.length_drop] at hlen ⊢
      omega

theorem takeFrame_framable {bytes record rest : List UInt8}
    (h : takeFrame bytes = some (record, rest)) : Framable record := by
  simp only [takeFrame] at h
  split at h
  next => simp at h
  next h4 =>
    split at h
    next => simp at h
    next hlen =>
      obtain ⟨rfl, rfl⟩ := Prod.mk.inj (Option.some.inj h)
      have hlt := fromLe_lt (bytes.take 4)
      rw [List.length_take, Nat.min_eq_left (by omega)] at hlt
      simp only [Framable, List.length_take]
      omega

/-- Records off the front of the bytes until one is not all there. -/
@[semireducible] def readFrames (bytes : List UInt8) : List (List UInt8) :=
  match _h : takeFrame bytes with
  | none => []
  | some (record, rest) => record :: readFrames rest
termination_by bytes.length
decreasing_by have := takeFrame_length _h; omega

@[semireducible] def tornTail (bytes : List UInt8) : List UInt8 :=
  match _h : takeFrame bytes with
  | none => bytes
  | some (_, rest) => tornTail rest
termination_by bytes.length
decreasing_by have := takeFrame_length _h; omega

theorem readFrames_none {bytes : List UInt8} (h : takeFrame bytes = none) :
    readFrames bytes = [] := by
  rw [readFrames]
  split <;> simp_all

theorem readFrames_some {bytes record rest : List UInt8}
    (h : takeFrame bytes = some (record, rest)) :
    readFrames bytes = record :: readFrames rest := by
  rw [readFrames]
  split <;> simp_all

theorem tornTail_none {bytes : List UInt8} (h : takeFrame bytes = none) :
    tornTail bytes = bytes := by
  rw [tornTail]
  split <;> simp_all

theorem tornTail_some {bytes record rest : List UInt8} (h : takeFrame bytes = some (record, rest)) :
    tornTail bytes = tornTail rest := by
  rw [tornTail]
  split <;> simp_all

theorem takeFrame_frame {record : List UInt8} (h : Framable record) (rest : List UInt8) :
    takeFrame (frame record ++ rest) = some (record, rest) := by
  have htake : (frame record ++ rest).take 4 = toLe 4 record.length := by
    rw [frame, List.append_assoc, List.take_append_of_le_length (by simp),
      List.take_of_length_le (by simp)]
  have hdrop : (frame record ++ rest).drop 4 = record ++ rest := by
    rw [frame, List.append_assoc, List.drop_append_of_le_length (by simp),
      List.drop_of_length_le (by simp)]
    rfl
  have hlen : fromLe (toLe 4 record.length) = record.length := fromLe_toLe h
  simp only [takeFrame, htake, hdrop, hlen]
  rw [if_neg (by simp [frame]), if_neg (by simp), List.take_left, List.drop_left]

theorem takeFrame_cut {record : List UInt8} {n : Nat} (h : Framable record)
    (hn : n < (frame record).length) : takeFrame ((frame record).take n) = none := by
  simp only [frame, List.length_append, length_toLe] at hn
  simp only [takeFrame]
  split
  next => rfl
  next h4 =>
    simp only [frame, List.length_take, List.length_append, length_toLe] at h4
    have hlen : fromLe (((frame record).take n).take 4) = record.length := by
      rw [List.take_take, Nat.min_eq_left (by omega), frame, List.take_append_of_le_length (by simp),
        List.take_of_length_le (by simp)]
      exact fromLe_toLe h
    rw [hlen, if_pos]
    simp only [frame, List.length_drop, List.length_take, List.length_append, length_toLe]
    omega

theorem tornTail_append {bytes : List UInt8} (h : tornTail bytes = []) (tail : List UInt8) :
    readFrames (bytes ++ tail) = readFrames bytes ++ readFrames tail ∧
      tornTail (bytes ++ tail) = tornTail tail := by
  induction hl : bytes.length using Nat.strongRecOn generalizing bytes with
  | _ l ih =>
    cases hf : takeFrame bytes with
    | none =>
      rw [tornTail_none hf] at h
      subst h
      simp [readFrames_none hf]
    | some p =>
      obtain ⟨record, rest⟩ := p
      have hlen := takeFrame_length hf
      rw [tornTail_some hf] at h
      obtain ⟨hr, ht⟩ := ih rest.length (by omega) h rfl
      have hf' : takeFrame (bytes ++ tail) = some (record, rest ++ tail) := by
        simp only [takeFrame] at hf ⊢
        split at hf
        next => simp at hf
        next h4 =>
          split at hf
          next => simp at hf
          next hb =>
            obtain ⟨rfl, rfl⟩ := Prod.mk.inj (Option.some.inj hf)
            rw [if_neg (by rw [List.length_append]; omega), List.take_append_of_le_length (by omega),
              List.drop_append_of_le_length (by omega), if_neg (by rw [List.length_append]; omega),
              List.take_append_of_le_length (by omega), List.drop_append_of_le_length (by omega)]
      rw [readFrames_some hf, readFrames_some hf', tornTail_some hf', hr, ht]
      exact ⟨rfl, rfl⟩

theorem readFrames_append_frame {bytes record : List UInt8} (h : tornTail bytes = [])
    (hr : Framable record) :
    readFrames (bytes ++ frame record) = readFrames bytes ++ [record] ∧
      tornTail (bytes ++ frame record) = [] := by
  have hf : takeFrame (frame record) = some (record, []) := by
    simpa using takeFrame_frame hr []
  have hnil : takeFrame [] = none := rfl
  obtain ⟨h1, h2⟩ := tornTail_append h (frame record)
  rw [h1, h2, readFrames_some hf, tornTail_some hf, readFrames_none hnil, tornTail_none hnil]
  exact ⟨rfl, rfl⟩

/-- A record partly written after whole records is not read at all. -/
theorem readFrames_append_cut {bytes record : List UInt8} {n : Nat} (h : tornTail bytes = [])
    (hr : Framable record) (hn : n < (frame record).length) :
    readFrames (bytes ++ (frame record).take n) = readFrames bytes := by
  rw [(tornTail_append h _).1, readFrames_none (takeFrame_cut hr hn), List.append_nil]

theorem readFrames_flatMap_frame {records : List (List UInt8)} (h : ∀ r ∈ records, Framable r) :
    readFrames (records.flatMap frame) = records := by
  induction records with
  | nil => exact readFrames_none rfl
  | cons r records ih =>
    rw [List.flatMap_cons, readFrames_some (takeFrame_frame (h r (by simp)) _),
      ih fun x hx => h x (List.mem_cons_of_mem r hx)]

theorem framable_of_mem_readFrames {bytes record : List UInt8} (h : record ∈ readFrames bytes) :
    Framable record := by
  induction hl : bytes.length using Nat.strongRecOn generalizing bytes with
  | _ l ih =>
    cases hf : takeFrame bytes with
    | none => simp [readFrames_none hf] at h
    | some p =>
      obtain ⟨r, rest⟩ := p
      have hlen := takeFrame_length hf
      rw [readFrames_some hf] at h
      rcases List.mem_cons.mp h with rfl | h
      · exact takeFrame_framable hf
      · exact ih rest.length (by omega) h rfl

example : readFrames [1, 0, 0, 0, 7, 2, 0, 0, 0, 9] = [[7]] := by decide +kernel

end Kernway
