import Kernway.Decimal
import Kernway.FieldValues
import Kernway.HttpFraming
import Kernway.IpText
import Kernway.RateLimit
import Kernway.Runs

namespace Kernway

/-- `str::parse::<u8>`. -/
def parseU8 (s : Text) : Option Nat := (parseUsize s).filter fun n => decide (n < 256)

/-- A block, unless its prefix is longer than the address. -/
def Cidr.of (network : IpAddr) (bits : Nat) : Option Cidr :=
  if h : bits ≤ network.width then some ⟨network, bits, h⟩ else none

/-- `parse_cidr`. -/
def parseCidr (spec : Text) : Option Cidr :=
  match cutAt '/' spec with
  | some (addr, bits) => do
    let network ← IpAddr.parse (trim addr)
    let bits ← parseU8 (trim bits)
    Cidr.of network bits
  | none => do
    let network ← IpAddr.parse (trim spec)
    Cidr.of network network.width

namespace BanList

variable (bans : BanList)

def add (rule : BanRule) : BanList := if rule ∈ bans.rules then bans else ⟨bans.rules ++ [rule]⟩

def remove (rule : BanRule) : BanList := ⟨bans.rules.filter fun r => decide (r ≠ rule)⟩

def removeIp (ip : IpAddr) : BanList := bans.remove (.ip ip)

def addSubnet (cidr : Text) : BanList :=
  match parseCidr cidr with
  | some cidr => bans.add (.subnet cidr)
  | none => bans

def removeSubnet (cidr : Text) : BanList :=
  match parseCidr cidr with
  | some cidr => bans.remove (.subnet cidr)
  | none => bans

def addUserAgentExact (agent : Text) : BanList := bans.add (.userAgentExact agent)

def removeUserAgentExact (agent : Text) : BanList := bans.remove (.userAgentExact agent)

def addUserAgentContaining (phrase : Text) : BanList :=
  bans.add (.userAgentContains (toAsciiLowercase phrase))

def removeUserAgentContaining (phrase : Text) : BanList :=
  bans.remove (.userAgentContains (toAsciiLowercase phrase))

def addUser (user : Text) : BanList := bans.add (.user user)

def removeUser (user : Text) : BanList := bans.remove (.user user)

def clear (_ : BanList) : BanList := ⟨[]⟩

end BanList

inductive BanRuleView
  | ip (ip : IpAddr)
  | subnet (cidr : Text)
  | userAgentExact (agent : Text)
  | userAgentContains (phrase : Text)
  | user (user : Text)

def BanRule.view : BanRule → BanRuleView
  | .ip addr => .ip addr
  | .subnet cidr => .subnet (cidr.network.display ++ '/' :: Nat.toDigits 10 cidr.bits)
  | .userAgentExact agent => .userAgentExact agent
  | .userAgentContains phrase => .userAgentContains phrase
  | .user name => .user name

/-- `BanList::rules`: the rules for an export. -/
def BanList.views (bans : BanList) : List BanRuleView := bans.rules.map BanRule.view

/-- An exported rule is added again. -/
def BanList.addView (bans : BanList) : BanRuleView → BanList
  | .ip ip => bans.addIp ip
  | .subnet cidr => bans.addSubnet cidr
  | .userAgentExact agent => bans.addUserAgentExact agent
  | .userAgentContains phrase => bans.addUserAgentContaining phrase
  | .user user => bans.addUser user

/-- What is banned or unbanned, as it is given. -/
inductive BanTarget
  | ip (ip : IpAddr)
  | subnet (cidr : Text)
  | userAgentExact (agent : Text)
  | userAgentContaining (phrase : Text)
  | user (user : Text)

inductive BanOp
  | ban (target : BanTarget)
  | unban (target : BanTarget)
  | clear

def BanList.apply (bans : BanList) : BanOp → BanList
  | .ban (.ip ip) => bans.addIp ip
  | .ban (.subnet cidr) => bans.addSubnet cidr
  | .ban (.userAgentExact agent) => bans.addUserAgentExact agent
  | .ban (.userAgentContaining phrase) => bans.addUserAgentContaining phrase
  | .ban (.user user) => bans.addUser user
  | .unban (.ip ip) => bans.removeIp ip
  | .unban (.subnet cidr) => bans.removeSubnet cidr
  | .unban (.userAgentExact agent) => bans.removeUserAgentExact agent
  | .unban (.userAgentContaining phrase) => bans.removeUserAgentContaining phrase
  | .unban (.user user) => bans.removeUser user
  | .clear => bans.clear

section Addresses

def IpAddr.value : IpAddr → Nat
  | v4 bits => bits.toNat
  | v6 bits => bits.toNat

/-- The set of addresses of a block: those of its family that begin with its prefix. -/
def Cidr.Covers (cidr : Cidr) (ip : IpAddr) : Prop :=
  ip.width = cidr.network.width ∧
    cidr.network.value / 2 ^ (cidr.network.width - cidr.bits) =
      ip.value / 2 ^ (cidr.network.width - cidr.bits)

theorem toNat_and_prefixMask {w n : Nat} (h : n ≤ w) (a : BitVec w) :
    (a &&& prefixMask w n).toNat = a.toNat / 2 ^ (w - n) * 2 ^ (w - n) := by
  unfold prefixMask
  split
  next hzero =>
    subst hzero
    have hnone : a &&& 0 = 0 := BitVec.and_zero
    rw [hnone, Nat.sub_zero, Nat.div_eq_of_lt a.isLt, Nat.zero_mul]
    rfl
  next =>
    have hshift : a &&& BitVec.allOnes w <<< (w - n) = (a >>> (w - n)) <<< (w - n) := by
      apply BitVec.eq_of_getLsbD_eq
      intro i hi
      by_cases hlow : i < w - n
      · simp [hlow]
      · simp [hlow, hi, Nat.add_sub_cancel' (Nat.le_of_not_lt hlow)]
    have hle : a.toNat / 2 ^ (w - n) * 2 ^ (w - n) < 2 ^ w :=
      Nat.lt_of_le_of_lt (Nat.div_mul_le_self ..) a.isLt
    rw [hshift, BitVec.toNat_shiftLeft, BitVec.toNat_ushiftRight, Nat.shiftLeft_eq,
      Nat.shiftRight_eq_div_pow, Nat.mod_eq_of_lt hle]

theorem and_prefixMask_eq_iff {w n : Nat} (h : n ≤ w) (a b : BitVec w) :
    (a &&& prefixMask w n == b &&& prefixMask w n) = true ↔
      a.toNat / 2 ^ (w - n) = b.toNat / 2 ^ (w - n) := by
  rw [beq_iff_eq, ← BitVec.toNat_inj, toNat_and_prefixMask h, toNat_and_prefixMask h]
  exact Nat.mul_left_inj (Nat.ne_of_gt (Nat.two_pow_pos _))

theorem cidrContains_iff (cidr : Cidr) (ip : IpAddr) :
    cidrContains cidr ip = true ↔ cidr.Covers ip := by
  obtain ⟨network, bits, fits⟩ := cidr
  cases network with
  | v4 net =>
    cases ip with
    | v4 ip =>
      refine (and_prefixMask_eq_iff fits net ip).trans ?_
      exact (and_iff_right rfl).symm
    | v6 ip => exact ⟨fun h => (nomatch h), fun h => absurd h.1 (by simp [IpAddr.width])⟩
  | v6 net =>
    cases ip with
    | v4 ip => exact ⟨fun h => (nomatch h), fun h => absurd h.1 (by simp [IpAddr.width])⟩
    | v6 ip =>
      refine (and_prefixMask_eq_iff fits net ip).trans ?_
      exact (and_iff_right rfl).symm

end Addresses

section History

/-- The rule a target stands for, where it can be read as one. -/
def BanTarget.rule : BanTarget → Option BanRule
  | ip addr => some (.ip addr)
  | subnet cidr => (parseCidr cidr).map .subnet
  | userAgentExact agent => some (.userAgentExact agent)
  | userAgentContaining phrase => some (.userAgentContains (toAsciiLowercase phrase))
  | user name => some (.user name)

/-- Blocks of the same addresses are one rule. -/
def BanRule.Same : BanRule → BanRule → Prop
  | subnet cidr, subnet cidr' => ∀ ip, cidr.Covers ip ↔ cidr'.Covers ip
  | rule, rule' => rule = rule'

/-- A rule covers a request. -/
def BanRule.Matches (ip : Option IpAddr) (userAgent : Option Text) : BanRule → Prop
  | .ip banned => ip = some banned
  | subnet cidr => ∃ addr, ip = some addr ∧ cidr.Covers addr
  | userAgentExact exact => userAgent = some exact
  | userAgentContains phrase => ∃ before after,
    userAgent.map toAsciiLowercase = some (before ++ phrase ++ after)
  | user _ => False

/-- An operation takes a rule away. -/
def BanOp.Lifts (rule : BanRule) : BanOp → Prop
  | ban _ => False
  | unban target => ∃ rule', target.rule = some rule' ∧ rule'.Same rule
  | clear => True

/-- A rule has been banned and not unbanned since. -/
def Standing (ops : List BanOp) (rule : BanRule) : Prop :=
  ∃ before target after, ops = before ++ .ban target :: after ∧ target.rule = some rule ∧
    ∀ op ∈ after, ¬ op.Lifts rule

/-- A list with the operations that made it. -/
structure BanHistory where
  bans : BanList := ⟨[]⟩
  ops : List BanOp := []

def banSystem : System BanHistory BanOp where
  start s := s = {}
  step s op s' := s' = ⟨s.bans.apply op, s.ops ++ [op]⟩

/-- The list bans what a standing rule covers, and so does the list made again from its export. -/
def BanHistory.Right (s : BanHistory) : Prop :=
  (∀ ip userAgent, s.bans.isBanned ip userAgent = true ↔
    ∃ rule, Standing s.ops rule ∧ rule.Matches ip userAgent) ∧
  ∀ ip userAgent, (s.bans.views.foldl BanList.addView ⟨[]⟩).isBanned ip userAgent =
    s.bans.isBanned ip userAgent

/-- An unban is spelled as the rules of the list that it means. -/
def Spelled (s : BanHistory) : BanOp → Prop
  | .unban target => ∀ rule, target.rule = some rule →
    ∀ rule' ∈ s.bans.rules, rule.Same rule' → rule' = rule
  | _ => True

theorem BanRule.Same.refl (rule : BanRule) : rule.Same rule := by
  cases rule with
  | subnet cidr => exact fun _ => Iff.rfl
  | ip | userAgentExact | userAgentContains | user => rfl

theorem standing_append {ops : List BanOp} {op : BanOp} {rule : BanRule} :
    Standing (ops ++ [op]) rule ↔
      (∃ target, op = .ban target ∧ target.rule = some rule) ∨ Standing ops rule ∧ ¬ op.Lifts rule := by
  constructor
  · rintro ⟨before, target, after, heq, hrule, hkept⟩
    rcases List.eq_nil_or_concat after with rfl | ⟨after', last, rfl⟩
    · obtain ⟨-, hop⟩ := List.append_inj' heq rfl
      exact .inl ⟨target, (List.cons.inj hop).1, hrule⟩
    · rw [List.concat_eq_append] at heq hkept
      have heq' : ops ++ [op] = (before ++ .ban target :: after') ++ [last] := by simpa using heq
      obtain ⟨hops, hlast⟩ := List.append_inj' heq' rfl
      cases hlast
      refine .inr ⟨⟨before, target, after', hops, hrule, fun x hx => hkept x ?_⟩, hkept op ?_⟩
      · exact List.mem_append_left _ hx
      · exact List.mem_append_right _ (List.mem_singleton.mpr rfl)
  · rintro (⟨target, rfl, hrule⟩ | ⟨⟨before, target, after, rfl, hrule, hkept⟩, hlifts⟩)
    · exact ⟨ops, target, [], rfl, hrule, fun x hx => nomatch hx⟩
    · refine ⟨before, target, after ++ [op], by simp, hrule, fun x hx => ?_⟩
      rcases List.mem_append.mp hx with hx | hx
      · exact hkept x hx
      · rwa [List.mem_singleton.mp hx]

theorem mem_add {bans : BanList} {rule rule' : BanRule} :
    rule' ∈ (bans.add rule).rules ↔ rule' ∈ bans.rules ∨ rule' = rule := by
  unfold BanList.add
  split
  next hin =>
    refine ⟨.inl, fun h => h.elim id ?_⟩
    rintro rfl
    exact hin
  next => simp

theorem mem_remove {bans : BanList} {rule rule' : BanRule} :
    rule' ∈ (bans.remove rule).rules ↔ rule' ∈ bans.rules ∧ rule' ≠ rule := by
  simp [BanList.remove]

/-- A ban adds the target's rule, if there is one. -/
theorem apply_ban (bans : BanList) (target : BanTarget) :
    bans.apply (.ban target) = (target.rule.map bans.add).getD bans := by
  cases target with
  | subnet cidr =>
    simp only [BanList.apply, BanList.addSubnet, BanTarget.rule]
    cases parseCidr cidr <;> rfl
  | ip | userAgentExact | userAgentContaining | user => rfl

theorem apply_unban (bans : BanList) (target : BanTarget) :
    bans.apply (.unban target) = (target.rule.map bans.remove).getD bans := by
  cases target with
  | subnet cidr =>
    simp only [BanList.apply, BanList.removeSubnet, BanTarget.rule]
    cases parseCidr cidr <;> rfl
  | ip | userAgentExact | userAgentContaining | user => rfl

/-- The rules of the list are those that stand. -/
theorem mem_apply {s : BanHistory} (h : ∀ rule, rule ∈ s.bans.rules ↔ Standing s.ops rule) {op : BanOp}
    (hspelled : Spelled s op) (rule : BanRule) :
    rule ∈ (s.bans.apply op).rules ↔ Standing (s.ops ++ [op]) rule := by
  rw [standing_append, ← h]
  cases op with
  | ban target =>
    rw [apply_ban]
    cases ht : target.rule with
    | none => simp [BanOp.Lifts, ht]
    | some rule' => simp [BanOp.Lifts, mem_add, ht, eq_comm, or_comm]
  | unban target =>
    rw [apply_unban]
    cases ht : target.rule with
    | none => simp [BanOp.Lifts, ht]
    | some rule' =>
      simp only [Option.map_some, Option.getD_some, mem_remove, reduceCtorEq, false_and,
        exists_false, false_or, BanOp.Lifts, ht, Option.some.injEq, exists_eq_left']
      refine and_congr_right fun hin => not_congr ⟨?_, fun hsame => hspelled rule' ht rule hin hsame⟩
      rintro rfl
      exact BanRule.Same.refl rule
  | clear => simp [BanList.apply, BanList.clear, BanOp.Lifts]

theorem bans_iff (ip : Option IpAddr) (userAgent : Option Text) (rule : BanRule) :
    rule.bans ip userAgent = true ↔ rule.Matches ip userAgent := by
  cases rule with
  | ip banned => simp [BanRule.bans, BanRule.Matches]
  | subnet cidr => simp [BanRule.bans, BanRule.Matches, cidrContains_iff, Option.any_eq_true]
  | userAgentExact exact => simp [BanRule.bans, BanRule.Matches]
  | userAgentContains phrase =>
    cases userAgent with
    | none => simp [BanRule.bans, BanRule.Matches]
    | some ua => simp only [BanRule.bans, BanRule.Matches, Option.any_some, containsText_iff,
        Option.map_some, Option.some.injEq]
  | user name => simp [BanRule.bans, BanRule.Matches]

end History

section Export

/-- No separator and no blank. -/
def AddressChar (c : Char) : Prop := c ≠ '/' ∧ c ≠ ',' ∧ isWhitespace c = false

theorem plain_of_toDigit {radix : Nat} {c : Char} (h : (IpAddr.toDigit radix c).isSome = true) :
    AddressChar c := by
  have hrange : ∀ a b : Char, a ≤ c ∧ c ≤ b → a.toNat ≤ c.toNat ∧ c.toNat ≤ b.toNat :=
    fun a b hab => ⟨UInt32.le_iff_toNat_le.mp hab.1, UInt32.le_iff_toNat_le.mp hab.2⟩
  have halnum : 48 ≤ c.toNat ∧ c.toNat ≤ 57 ∨ 97 ≤ c.toNat ∧ c.toNat ≤ 122 ∨
      65 ≤ c.toNat ∧ c.toNat ≤ 90 := by
    unfold IpAddr.toDigit at h
    dsimp only at h
    split at h
    next hdigit => exact .inl (hrange _ _ hdigit)
    next =>
      split at h
      next hlower => exact .inr (.inl (hrange _ _ hlower))
      next =>
        split at h
        next hupper => exact .inr (.inr (hrange _ _ hupper))
        next => simp at h
  refine ⟨?_, ?_, ?_⟩
  · rintro rfl
    revert halnum
    decide
  · rintro rfl
    revert halnum
    decide
  · simp only [isWhitespace, Bool.or_eq_false_iff, Bool.and_eq_false_iff, decide_eq_false_iff_not,
      beq_eq_false_iff_ne]
    omega

theorem plain_of_mem_toDigits {radix n : Nat} (h₁ : 1 < radix) (h₂ : radix ≤ 16) {c : Char}
    (h : c ∈ Nat.toDigits radix n) : AddressChar c :=
  plain_of_toDigit ((IpAddr.toDigits_chars h₁ h₂ n).1 c h)

theorem plain_of_mem_displayV4 {bits : BitVec 32} {c : Char} (h : c ∈ IpAddr.displayV4 bits) :
    AddressChar c := by
  by_cases hdot : c = '.'
  · subst hdot
    exact ⟨by decide, by decide, by decide⟩
  · obtain ⟨l, hl, hc⟩ := (mem_intercalate hdot).mp h
    obtain ⟨n, -, rfl⟩ := List.mem_map.mp hl
    exact plain_of_mem_toDigits (by decide) (by decide) hc

theorem plain_colon : AddressChar ':' := ⟨by decide, by decide, by decide⟩

theorem plain_of_mem_fmtSubslice {groups : List Nat} {c : Char} (h : c ∈ IpAddr.fmtSubslice groups) :
    AddressChar c := by
  cases groups with
  | nil => cases h
  | cons g groups =>
    rcases List.mem_append.mp h with h | h
    · exact plain_of_mem_toDigits (by decide) (by decide) h
    · obtain ⟨n, -, hc⟩ := List.mem_flatMap.mp h
      rcases List.mem_cons.mp hc with rfl | hc
      · exact plain_colon
      · exact plain_of_mem_toDigits (by decide) (by decide) hc

theorem plain_of_mem_display {ip : IpAddr} {c : Char} (h : c ∈ ip.display) : AddressChar c := by
  cases ip with
  | v4 bits => exact plain_of_mem_displayV4 h
  | v6 bits =>
    obtain ⟨segments, -, hcases⟩ := IpAddr.displayV6_cases bits
    rw [IpAddr.display] at h
    rcases hcases with ⟨low, -, htext⟩ | ⟨before, len, after, -, -, htext⟩ | htext
    · rw [htext] at h
      simp only [List.mem_cons, List.mem_append] at h
      rcases h with rfl | rfl | h | rfl | h
      · exact plain_colon
      · exact plain_colon
      · exact plain_of_mem_toDigits (by decide) (by decide) h
      · exact plain_colon
      · exact plain_of_mem_displayV4 h
    · rw [htext] at h
      simp only [List.mem_cons, List.mem_append] at h
      rcases h with h | rfl | rfl | h
      · exact plain_of_mem_fmtSubslice h
      · exact plain_colon
      · exact plain_colon
      · exact plain_of_mem_fmtSubslice h
    · rw [htext] at h
      exact plain_of_mem_fmtSubslice h

theorem trim_plain {s : Text} (h : ∀ c ∈ s, AddressChar c) : trim s = s :=
  trim_eq_self (fun c hc => (h c (List.mem_of_mem_head? hc)).2.2)
    fun c hc => (h c (List.mem_of_mem_getLast? hc)).2.2

theorem parseU8_toDigits {n : Nat} (h : n < 256) : parseU8 (Nat.toDigits 10 n) = some n := by
  rw [parseU8, parseUsize_toDigits (by omega)]
  simp [h]

/-- A block is read back from its export. -/
theorem parseCidr_view (cidr : Cidr) :
    parseCidr (cidr.network.display ++ '/' :: Nat.toDigits 10 cidr.bits) = some cidr := by
  have hcut : cutAt '/' (cidr.network.display ++ '/' :: Nat.toDigits 10 cidr.bits) =
      some (cidr.network.display, Nat.toDigits 10 cidr.bits) :=
    cutAt_eq_some_iff.mpr ⟨rfl, fun hin => (plain_of_mem_display hin).1 rfl⟩
  have hbits : cidr.bits < 256 := by
    have hfits := cidr.fits
    have hwidth : cidr.network.width ≤ 128 := by
      cases cidr.network <;> simp [IpAddr.width]
    omega
  have hnetwork : trim cidr.network.display = cidr.network.display :=
    trim_plain fun c => plain_of_mem_display
  have hdigits : trim (Nat.toDigits 10 cidr.bits) = Nat.toDigits 10 cidr.bits :=
    trim_plain fun c => plain_of_mem_toDigits (by decide) (by decide)
  rw [parseCidr, hcut]
  simp only [hnetwork, hdigits, IpAddr.parse_display, parseU8_toDigits hbits, Option.bind_eq_bind,
    Option.bind_some]
  exact dif_pos cidr.fits

/-- A rule that a ban makes is added as it is from its export. -/
theorem addView_view (bans : BanList) {target : BanTarget} {rule : BanRule}
    (h : target.rule = some rule) : bans.addView rule.view = bans.add rule := by
  cases rule with
  | ip addr => rfl
  | subnet cidr => simp only [BanRule.view, BanList.addView, BanList.addSubnet, parseCidr_view]
  | userAgentExact agent => rfl
  | userAgentContains phrase =>
    have hlower : toAsciiLowercase phrase = phrase := by
      cases target with
      | userAgentContaining p =>
        cases Option.some.inj h
        exact toAsciiLowercase_idem p
      | subnet text =>
        obtain ⟨cidr, -, hrule⟩ := Option.map_eq_some_iff.mp h
        cases hrule
      | ip | userAgentExact | user => cases h
    simp only [BanRule.view, BanList.addView, BanList.addUserAgentContaining, hlower]
  | user name => rfl

/-- Different rules added one after the other all stay, in order. -/
theorem foldl_add {rules past : List BanRule} (h : (past ++ rules).Nodup) :
    rules.foldl BanList.add ⟨past⟩ = ⟨past ++ rules⟩ := by
  induction rules generalizing past with
  | nil => rw [List.append_nil]; rfl
  | cons rule rules ih =>
    have hnew : rule ∉ past := by
      intro hin
      exact (List.nodup_append.mp h).2.2 rule hin rule (List.mem_cons_self ..) rfl
    have happ : past ++ rule :: rules = (past ++ [rule]) ++ rules := by simp
    rw [List.foldl_cons, BanList.add, if_neg hnew, happ]
    exact ih (by rwa [← happ])

theorem foldl_addView {rules : List BanRule} (hnodup : rules.Nodup)
    (hrules : ∀ rule ∈ rules, ∃ target : BanTarget, target.rule = some rule) :
    (rules.map BanRule.view).foldl BanList.addView ⟨[]⟩ = ⟨rules⟩ := by
  have hadd : ∀ bans : BanList, (rules.map BanRule.view).foldl BanList.addView bans =
      rules.foldl BanList.add bans := by
    intro bans
    rw [List.foldl_map]
    clear hnodup
    induction rules generalizing bans with
    | nil => rfl
    | cons rule rules ih =>
      obtain ⟨target, ht⟩ := hrules rule (List.mem_cons_self ..)
      rw [List.foldl_cons, List.foldl_cons, addView_view bans ht]
      exact ih (fun r hr => hrules r (List.mem_cons_of_mem _ hr)) _
  rw [hadd, foldl_add (by simpa using hnodup), List.nil_append]

theorem nodup_apply {bans : BanList} (h : bans.rules.Nodup) (op : BanOp) : (bans.apply op).rules.Nodup := by
  have hadd : ∀ rule, (bans.add rule).rules.Nodup := by
    intro rule
    unfold BanList.add
    split
    next => exact h
    next hnew => exact List.nodup_append.mpr ⟨h, List.nodup_singleton rule, fun a ha b hb heq => by
      rw [List.mem_singleton.mp hb] at heq
      exact hnew (heq ▸ ha)⟩
  cases op with
  | ban target =>
    rw [apply_ban]
    cases target.rule with
    | none => exact h
    | some rule => exact hadd rule
  | unban target =>
    rw [apply_unban]
    cases target.rule with
    | none => exact h
    | some rule => exact h.filter _
  | clear => exact List.nodup_nil

end Export

/-- In every run whose unbans are spelled as the rules they mean, the list bans what a standing rule
covers, and its export makes it again. -/
theorem right_of_spelled {s : BanHistory} (h : banSystem.Reach Spelled s) : s.Right := by
  have hstart : ∀ s, banSystem.start s →
      s.bans.rules.Nodup ∧ ∀ rule, rule ∈ s.bans.rules ↔ Standing s.ops rule := by
    rintro s rfl
    refine ⟨List.nodup_nil, fun rule => ⟨fun hin => (nomatch hin), ?_⟩⟩
    rintro ⟨before, target, after, heq, -⟩
    simp at heq
  have hinv := h.invariant hstart fun s op s' ih hok hstep => by
    cases hstep
    exact ⟨nodup_apply ih.1 op, mem_apply ih.2 hok⟩
  obtain ⟨hnodup, hrules⟩ := hinv
  refine ⟨fun ip userAgent => ?_, fun ip userAgent => ?_⟩
  · rw [BanList.isBanned, List.any_eq_true]
    simp only [bans_iff, hrules]
  · have hsome : ∀ rule ∈ s.bans.rules, ∃ target : BanTarget, target.rule = some rule := by
      intro rule hin
      obtain ⟨before, target, after, -, ht, -⟩ := (hrules rule).mp hin
      exact ⟨target, ht⟩
    rw [BanList.views, foldl_addView hnodup hsome]

/-- A subnet stands for the addresses of its network, whatever its host part. -/
example : let bans := (⟨[]⟩ : BanList).apply (.ban (.subnet "10.0.0.1/8".toList))
    bans.isBanned (some (.v4 0x0a090909)) none = true ∧
      bans.isBanned (some (.v4 0x0b000001)) none = false := by
  decide +kernel

theorem parseCidr_of_parts {spec : Text} {network : IpAddr} {bits : Nat}
    (h : (parseCidr spec).map (fun cidr => (cidr.network, cidr.bits)) = some (network, bits)) :
    ∃ cidr, parseCidr spec = some cidr ∧ cidr.network = network ∧ cidr.bits = bits := by
  obtain ⟨cidr, hcidr, heq⟩ := Option.map_eq_some_iff.mp h
  obtain ⟨hnetwork, hbits⟩ := Prod.mk.inj heq
  exact ⟨cidr, hcidr, hnetwork, hbits⟩

/-- The addresses that begin with 10, as a block with a host part. -/
theorem parse_tenHost : ∃ cidr, parseCidr "10.0.0.1/8".toList = some cidr ∧
    cidr.network = .v4 0x0a000001 ∧ cidr.bits = 8 :=
  parseCidr_of_parts (by decide)

theorem parse_tenNetwork : ∃ cidr, parseCidr "10.0.0.0/8".toList = some cidr ∧
    cidr.network = .v4 0x0a000000 ∧ cidr.bits = 8 :=
  parseCidr_of_parts (by decide)

/-- A subnet and a phrase are banned, and the subnet is unbanned with a blank before it. -/
theorem right_of_spelled_blank : ∃ s, banSystem.Reach Spelled s ∧ s.Right ∧
    s.bans.rules = [.userAgentContains "bot".toList] := by
  have h₀ : banSystem.Reach Spelled {} := .start rfl
  have h₁ := h₀.step (e := BanOp.ban (.subnet "10.0.0.1/8".toList)) trivial rfl
  have h₂ := h₁.step (e := BanOp.ban (.userAgentContaining "Bot".toList)) trivial rfl
  have h₃ := h₂.step (e := BanOp.unban (.subnet " 10.0.0.1/8".toList)) ?_ rfl
  · exact ⟨_, h₃, right_of_spelled h₃, by decide +kernel⟩
  · have hsame : parseCidr " 10.0.0.1/8".toList = parseCidr "10.0.0.1/8".toList := by decide +kernel
    intro rule hrule rule' hin hcovers
    obtain ⟨cidr, hcidr, -⟩ := parse_tenHost
    simp only [BanTarget.rule, hsame, hcidr, Option.map_some, Option.some.injEq] at hrule
    subst hrule
    simp only [BanList.apply, BanList.addSubnet, hcidr, BanList.addUserAgentContaining, mem_add,
      List.not_mem_nil, false_or] at hin
    rcases hin with rfl | rfl
    · rfl
    · exact hcovers.symm

/-- A subnet banned with host bits is not unbanned as its network. -/
theorem not_right : ¬ ∀ s, banSystem.Reachable s → s.Right := by
  intro hall
  have h₀ : banSystem.Reachable {} := .start rfl
  have h₁ := h₀.step (e := BanOp.ban (.subnet "10.0.0.1/8".toList)) trivial rfl
  have h₂ := h₁.step (e := BanOp.unban (.subnet "10.0.0.0/8".toList)) trivial rfl
  obtain ⟨rule, hstanding, -⟩ :=
    ((hall _ h₂).1 (some (.v4 0x0a000001)) none).mp (by decide +kernel)
  obtain ⟨cidr, hcidr, hnetwork, hbits⟩ := parse_tenHost
  obtain ⟨cidr', hcidr', hnetwork', hbits'⟩ := parse_tenNetwork
  have hsame : ∀ ip, cidr'.Covers ip ↔ cidr.Covers ip := by
    intro ip
    have hvalue : (0x0a000000 : BitVec 32).toNat / 2 ^ (32 - 8) =
        (0x0a000001 : BitVec 32).toNat / 2 ^ (32 - 8) := by decide
    simp only [Cidr.Covers, hnetwork, hnetwork', hbits, hbits', IpAddr.width, IpAddr.value, hvalue]
  obtain ⟨target, htarget, -⟩ | ⟨hbefore, hkept⟩ := standing_append.mp hstanding
  · cases htarget
  · refine hkept ⟨.subnet cidr', by rw [BanTarget.rule, hcidr']; rfl, ?_⟩
    obtain ⟨target, htarget, hrule⟩ | ⟨hnone, -⟩ := standing_append.mp hbefore
    · cases htarget
      rw [BanTarget.rule, hcidr] at hrule
      cases hrule
      exact hsame
    · obtain ⟨before, target, after, heq, -⟩ := hnone
      simp at heq

end Kernway
