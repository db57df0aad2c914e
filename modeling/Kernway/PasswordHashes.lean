import Kernway.BcryptHash

namespace Kernway

namespace Pbkdf2

/-- `pbkdf2_sha256`: one block of output. -/
def pbkdf2Sha256 (password salt : Bytes) (iterations : UInt32) : Bytes :=
  let u := hmacSha256 password (salt ++ Sha256.beBytes 1)
  let step := fun v : Bytes × Bytes =>
    let u := hmacSha256 password v.1
    (u, List.zipWith (· ^^^ ·) v.2 u)
  (Nat.repeat step ((max iterations 1).toNat - 1) (u, u)).2

def algorithm : Text := "pbkdf2-sha256".toList

/-- `hash_with`, with the bytes that the system's randomness gave for the salt. -/
def hashWith (salt : Salt) (password : Text) (iterations : UInt32) : Text :=
  let dk := pbkdf2Sha256 (encodeUtf8 password) salt.1 iterations
  algorithm ++ '$' :: (Nat.toDigits 10 iterations.toNat ++ '$' :: (b64urlEncode salt.1 ++
    '$' :: b64urlEncode dk))

def verifyPassword (password stored : Text) : Bool :=
  match stored.splitOn '$' with
  | [name, iterations, salt, expected] =>
    if name ≠ algorithm then false
    else
      match parseU32 iterations, b64urlDecode salt with
      | some iterations, some salt =>
        Csrf.verify (b64urlEncode (pbkdf2Sha256 (encodeUtf8 password) salt iterations)) expected
      | _, _ => false
  | _ => false

theorem dollar_notMem_b64urlEncode (data : Bytes) : '$' ∉ b64urlEncode data := by
  intro h
  have hmem := mem_alphabet_of_mem_b64urlEncode h
  revert hmem
  decide

theorem splitOn_hashWith (salt : Salt) (password : Text) (iterations : UInt32) :
    (hashWith salt password iterations).splitOn '$' =
      [algorithm, Nat.toDigits 10 iterations.toNat, b64urlEncode salt.1,
        b64urlEncode (pbkdf2Sha256 (encodeUtf8 password) salt.1 iterations)] := by
  have hname : '$' ∉ algorithm := by decide
  unfold hashWith
  dsimp only
  rw [List.splitOn_append_cons_self_of_not_mem hname,
    List.splitOn_append_cons_self_of_not_mem (notMem_toDigits (by decide) _),
    List.splitOn_append_cons_self_of_not_mem (dollar_notMem_b64urlEncode _),
    List.splitOn_eq_singleton (dollar_notMem_b64urlEncode _)]

theorem verifyPassword_hashWith (salt : Salt) (password password' : Text) (iterations : UInt32) :
    verifyPassword password' (hashWith salt password iterations) = true ↔
      pbkdf2Sha256 (encodeUtf8 password') salt.1 iterations =
        pbkdf2Sha256 (encodeUtf8 password) salt.1 iterations := by
  unfold verifyPassword
  rw [splitOn_hashWith]
  dsimp only
  rw [if_neg (not_not.mpr rfl), parseU32_toDigits, b64urlDecode_b64urlEncode]
  dsimp only
  rw [Csrf.verify_iff, b64urlEncode_inj]

end Pbkdf2

/-- Both formats verify the password they were made of, and another one only where the raw hashes
are equal; the check of a bcrypt hash comes to an answer except where a cut goes through a
character. -/
theorem passwordHashes_verify (salt : Salt) (password password' stored : Text)
    (cost iterations : UInt32) :
    (Bcrypt.verifyBcrypt password (Bcrypt.hashBcrypt salt password cost) = .ok true ∧
      Pbkdf2.verifyPassword password (Pbkdf2.hashWith salt password iterations) = true) ∧
    (Bcrypt.verifyBcrypt password' (Bcrypt.hashBcrypt salt password cost) = .ok true ↔
      bcryptRaw (Bcrypt.clampCost cost) salt (Bcrypt.keyBytes password') =
        bcryptRaw (Bcrypt.clampCost cost) salt (Bcrypt.keyBytes password)) ∧
    (Pbkdf2.verifyPassword password' (Pbkdf2.hashWith salt password iterations) = true ↔
      Pbkdf2.pbkdf2Sha256 (encodeUtf8 password') salt.1 iterations =
        Pbkdf2.pbkdf2Sha256 (encodeUtf8 password) salt.1 iterations) ∧
    ((∃ accepted, Bcrypt.verifyBcrypt password stored = .ok accepted) ↔
      ¬ Bcrypt.CutsCharacter stored) :=
  ⟨⟨(Bcrypt.verifyBcrypt_hashBcrypt ..).mpr rfl, (Pbkdf2.verifyPassword_hashWith ..).mpr rfl⟩,
    Bcrypt.verifyBcrypt_hashBcrypt .., Pbkdf2.verifyPassword_hashWith ..,
    Bcrypt.verifyBcrypt_isOk_iff password stored⟩

/-- A stored text of sixty characters, one of them of two bytes. -/
def accentedHash : Text :=
  "$2b$04$".toList ++ List.replicate 21 'a' ++ 'é' :: List.replicate 30 'a'

theorem not_passwordHashes_verify :
    ¬ ∀ password stored, ∃ accepted, Bcrypt.verifyBcrypt password stored = .ok accepted := by
  intro h
  obtain ⟨accepted, haccepted⟩ := h "pw".toList accentedHash
  have hfault : Bcrypt.parseHash accentedHash = .error .midCharacter := by decide +kernel
  rw [Bcrypt.verifyBcrypt, hfault] at haccepted
  cases haccepted

end Kernway
