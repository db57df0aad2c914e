import Mathlib.Data.List.Basic

namespace Kernway

/-- A decoder of one item from the front of a buffer. `none` asks for more bytes; an answer,
once given, does not change as the buffer grows. -/
structure Incremental (α β ε : Type) where
  decode : List α → Except ε (Option (β × Nat))
  empty : decode [] = .ok none
  stable : ∀ {buf b n}, decode buf = .ok (some (b, n)) → ∀ ext,
    decode (buf ++ ext) = .ok (some (b, n))
  stable_error : ∀ {buf e}, decode buf = .error e → ∀ ext, decode (buf ++ ext) = .error e
  consumed_pos : ∀ {buf b n}, decode buf = .ok (some (b, n)) → 0 < n
  consumed_le : ∀ {buf b n}, decode buf = .ok (some (b, n)) → n ≤ buf.length

/-- What a reading loop has produced: the items so far, then the undecoded rest or the error
that stopped it. -/
structure Progress (α β ε : Type) where
  items : List β
  rest : Except ε (List α)

namespace Incremental

variable {α β ε : Type} (d : Incremental α β ε)

theorem drain_decreases {buf : List α} {b : β} {n : Nat} (h : d.decode buf = .ok (some (b, n))) :
    (buf.drop n).length < buf.length := by
  have := d.consumed_pos h
  have := d.consumed_le h
  rw [List.length_drop]
  omega

/-- Decode items off the front of the buffer until one is incomplete or refused. -/
def drain (buf : List α) : Progress α β ε :=
  match _h : d.decode buf with
  | .error e => ⟨[], .error e⟩
  | .ok none => ⟨[], .ok buf⟩
  | .ok (some (b, n)) =>
    let p := drain (buf.drop n)
    ⟨b :: p.items, p.rest⟩
termination_by buf.length
decreasing_by exact d.drain_decreases _h

/-- One read: the new elements join what was left over. Nothing is read after an error. -/
def feed (p : Progress α β ε) (chunk : List α) : Progress α β ε :=
  match p.rest with
  | .error e => ⟨p.items, .error e⟩
  | .ok rest => ⟨p.items ++ (d.drain (rest ++ chunk)).items, (d.drain (rest ++ chunk)).rest⟩

def run (chunks : List (List α)) : Progress α β ε := chunks.foldl d.feed ⟨[], .ok []⟩

variable {d}

theorem drain_error {buf : List α} {e : ε} (h : d.decode buf = .error e) :
    d.drain buf = ⟨[], .error e⟩ := by
  rw [drain]
  split <;> simp_all

theorem drain_none {buf : List α} (h : d.decode buf = .ok none) : d.drain buf = ⟨[], .ok buf⟩ := by
  rw [drain]
  split <;> simp_all

theorem drain_some {buf : List α} {b : β} {n : Nat} (h : d.decode buf = .ok (some (b, n))) :
    d.drain buf = ⟨b :: (d.drain (buf.drop n)).items, (d.drain (buf.drop n)).rest⟩ := by
  rw [drain]
  split <;> simp_all

/-- No answer is given on a strict prefix of what an answer consumes. -/
theorem decode_strict_prefix {buf part : List α} {b : β} {n : Nat}
    (h : d.decode buf = .ok (some (b, n))) (hp : part <+: buf.take n) (hlt : part.length < n) :
    d.decode part = .ok none := by
  obtain ⟨ext, hext⟩ := hp.trans (List.take_prefix n buf)
  cases hd : d.decode part with
  | error e =>
    have := d.stable_error hd ext
    simp [hext, h] at this
  | ok r =>
    cases r with
    | none => rfl
    | some q =>
      obtain ⟨c, m⟩ := q
      have hs := d.stable hd ext
      have hm := d.consumed_le hd
      simp only [hext, h, Except.ok.injEq, Option.some.injEq, Prod.mk.injEq] at hs
      omega

/-- Draining a longer buffer is draining the shorter one and going on from its rest. -/
theorem drain_append (buf ext : List α) : d.drain (buf ++ ext) = d.feed (d.drain buf) ext := by
  induction hl : buf.length using Nat.strongRecOn generalizing buf with
  | _ l ih =>
    cases h : d.decode buf with
    | error e => rw [drain_error h, drain_error (d.stable_error h ext)]; rfl
    | ok r =>
      cases r with
      | none => rw [drain_none h]; simp [feed]
      | some q =>
        obtain ⟨b, n⟩ := q
        have hlt := d.drain_decreases h
        have hn := d.consumed_le h
        have hh := ih _ (by omega) (buf.drop n) rfl
        rw [drain_some h, drain_some (d.stable h ext), List.drop_append_of_le_length hn, hh]
        cases hr : (d.drain (buf.drop n)).rest <;> simp [feed, hr]

/-- Reads of any size give what one read of the whole stream gives. -/
theorem run_eq_drain (chunks : List (List α)) : d.run chunks = d.drain chunks.flatten := by
  suffices h : ∀ buf, chunks.foldl d.feed (d.drain buf) = d.drain (buf ++ chunks.flatten) by
    simpa [run, drain_none d.empty] using h []
  induction chunks with
  | nil => simp
  | cons c cs ih =>
    intro buf
    rw [List.foldl_cons, ← drain_append, ih, List.flatten_cons, List.append_assoc]

end Incremental

end Kernway
