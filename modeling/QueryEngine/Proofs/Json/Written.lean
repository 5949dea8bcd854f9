import Mathlib
import QueryEngine.Json.Token

/-! Reading what was written.

`Falls s ts` says that the characters `s` fall into the tokens `ts`, blanks aside. It is
told token by token and without rounds; `tokensWithin_of_falls` gives as many rounds as
there are tokens, so that a printed text is read back by walking along it. The one token
whose spelling is not fixed is a number, `takeToken_toDigits`. -/
namespace QueryEngine.Json

/-! ### Numbers -/

theorem valueOf_toDigits (n : Nat) : valueOf (Nat.toDigits 10 n) = n := by
  have h : Nat.ofDigitChars 10 (Nat.toDigits 10 n) 0 = n := Nat.ofDigitChars_ten_toDigits
  rwa [Nat.ofDigitChars_eq_foldl] at h

/-- Nothing of a number stands at the front. -/
def EndsNumber (s : List Char) : Prop := ∀ c ∈ s.head?, c.isDigit = false ∧ c ≠ '.' ∧ c ≠ 'e' ∧ c ≠ 'E'

theorem endsNumber_cons {c : Char} (s : List Char) (hd : c.isDigit = false) (hp : c ≠ '.') (he : c ≠ 'e') (hE : c ≠ 'E') :
    EndsNumber (c :: s) := by
  intro d hm
  obtain rfl : c = d := by simpa using hm
  exact ⟨hd, hp, he, hE⟩

variable {s rest digits : List Char}

theorem takeDigits_append (hne : digits ≠ []) (hd : ∀ c ∈ digits, c.isDigit = true) (hs : EndsNumber s) :
    takeDigits (digits ++ s) = some (digits, s) := by
  have hstop : s.takeWhile Char.isDigit = [] ∧ s.dropWhile Char.isDigit = s := by
    cases s with
    | nil => exact ⟨rfl, rfl⟩
    | cons c s => simp [(hs c (by simp)).1]
  rw [takeDigits, List.takeWhile_append_of_pos hd, List.dropWhile_append_of_pos hd, hstop.1, hstop.2, List.append_nil]
  simp [hne]

theorem digitChar_ne_zero : ∀ d < 10, 0 < d → Nat.digitChar d ≠ '0' := by decide

/-- Only zero itself is written with a zero in front. -/
theorem head_toDigits_ne_zero (n : Nat) (hn : 0 < n) : (Nat.toDigits 10 n).head? ≠ some '0' := by
  induction n using Nat.strongRecOn with
  | _ n ih =>
    rw [Nat.toDigits_eq_if (by decide)]
    split
    · rename_i hlt
      simpa using digitChar_ne_zero n hlt hn
    · have hne : Nat.toDigits 10 (n / 10) ≠ [] := Nat.toDigits_ne_nil
      rw [List.head?_append, List.head?_eq_some_head hne, Option.some_or, ← List.head?_eq_some_head hne]
      exact ih (n / 10) (by omega) (by omega)

theorem takeWhole_toDigits (n : Nat) (hs : EndsNumber s) :
    takeWhole (Nat.toDigits 10 n ++ s) = some (Nat.toDigits 10 n, s) := by
  have hdigits : ∀ c ∈ Nat.toDigits 10 n, c.isDigit = true :=
    fun c hc => Nat.isDigit_of_mem_toDigits (by decide) (by decide) hc
  have h := takeDigits_append Nat.toDigits_ne_nil hdigits hs
  simp only [takeWhole, h, Option.bind_eq_bind, Option.bind_some]
  refine if_neg fun hw => ?_
  rcases Nat.eq_zero_or_pos n with rfl | hn
  · exact absurd hw.2 (by decide)
  · exact head_toDigits_ne_zero n hn hw.1

theorem skipFraction_of_endsNumber (hs : EndsNumber s) : skipFraction s = some (false, s) := by
  cases s with
  | nil => rfl
  | cons c s =>
    have hc := (hs c (by simp)).2.1
    unfold skipFraction
    split
    · simp_all
    · rfl

theorem skipExponent_of_endsNumber (hs : EndsNumber s) : skipExponent s = some (false, s) := by
  cases s with
  | nil => rfl
  | cons c s =>
    obtain ⟨-, -, he, hE⟩ := hs c (by simp)
    unfold skipExponent
    split <;> simp_all

theorem head_toDigits (n : Nat) : ∃ c ds, Nat.toDigits 10 n = c :: ds ∧ c.isDigit = true := by
  cases h : Nat.toDigits 10 n with
  | nil => exact absurd h Nat.toDigits_ne_nil
  | cons c ds =>
    have hmem : c ∈ Nat.toDigits 10 n := h ▸ List.mem_cons_self
    exact ⟨c, ds, rfl, Nat.isDigit_of_mem_toDigits (by decide) (by decide) hmem⟩

theorem takeNumber_toDigits (n : Nat) (hs : EndsNumber s) :
    takeNumber (Nat.toDigits 10 n ++ s) = some (.number (some n), s) := by
  have hwhole := takeWhole_toDigits n hs
  have hminus : (Nat.toDigits 10 n).head? ≠ some '-' := by
    obtain ⟨c, ds, h, hc⟩ := head_toDigits n
    intro heq
    obtain rfl : c = '-' := by simpa [h] using heq
    exact absurd hc (by decide)
  simp [takeNumber, hminus, hwhole, skipFraction_of_endsNumber hs, skipExponent_of_endsNumber hs, valueOf_toDigits]

/-- What starts with a digit is no other token. -/
theorem takeToken_digit {c : Char} (hc : c.isDigit = true) (s : List Char) : takeToken (c :: s) = takeNumber (c :: s) := by
  unfold takeToken
  split
  all_goals first | rfl | (rename_i heq; injection heq with h; subst h; exact absurd hc (by decide))

theorem takeToken_toDigits (n : Nat) (hs : EndsNumber s) :
    takeToken (Nat.toDigits 10 n ++ s) = some (.number (some n), s) := by
  obtain ⟨c, ds, h, hc⟩ := head_toDigits n
  rw [← takeNumber_toDigits n hs, h]
  exact takeToken_digit hc (ds ++ s)

/-! ### Strings -/

/-- The character stands for itself in a string. -/
def Plain (c : Char) : Prop := 0x20 ≤ c.toNat ∧ c ≠ '"' ∧ c ≠ '\\'

theorem takePieces_plain (hs : ∀ c ∈ s, Plain c) (rest : List Char) :
    takePieces (s ++ '"' :: rest) = some (s.map .char, rest) := by
  induction s with
  | nil => simp [takePieces]
  | cons c s ih =>
    obtain ⟨hc, hquote, hslash⟩ := hs c (by simp)
    have h := ih fun d hd => hs d (by simp [hd])
    rw [List.cons_append, takePieces.eq_def]
    split <;> simp_all

theorem textOf_chars (s : List Char) : textOf? (s.map .char) = some s := by
  induction s with
  | nil => rfl
  | cons c s ih => simp [textOf?, ih]

theorem takeToken_text (hs : ∀ c ∈ s, Plain c) (rest : List Char) :
    takeToken ('"' :: (s ++ '"' :: rest)) = some (.text (some (String.ofList s)), rest) := by
  simp [takeToken, takePieces_plain hs, textOf_chars]

/-! ### Texts -/

/-- The characters fall into the tokens. -/
inductive Falls : List Char → List Token → Prop where
  | done : Falls [] []
  | blank {c s ts} : isBlank c = true → Falls s ts → Falls (c :: s) ts
  | token {s rest t ts} : takeToken s = some (t, rest) → Falls rest ts → Falls s (t :: ts)

theorem takeToken_blank {c : Char} (hc : isBlank c = true) (s : List Char) : takeToken (c :: s) = none := by
  have h : c = ' ' ∨ c = '\t' ∨ c = '\n' ∨ c = '\r' := by simpa [isBlank, or_assoc] using hc
  rcases h with rfl | rfl | rfl | rfl <;> simp [takeToken, takeNumber, takeWhole, takeDigits]

theorem dropWhile_isBlank_of_token {t : Token} (h : takeToken s = some (t, rest)) :
    ∃ c tail, s = c :: tail ∧ s.dropWhile isBlank = s := by
  cases s with
  | nil => simp [takeToken, takeNumber, takeWhole, takeDigits] at h
  | cons c tail =>
    refine ⟨c, tail, rfl, ?_⟩
    cases hc : isBlank c with
    | true => simp [takeToken_blank hc] at h
    | false => simp [hc]

/-- As many rounds as there are tokens are enough. -/
theorem tokensWithin_of_falls {ts : List Token} (h : Falls s ts) (rounds : Nat) (hle : ts.length ≤ rounds) :
    tokensWithin rounds s = some ts := by
  induction h generalizing rounds with
  | done => cases rounds <;> simp [tokensWithin]
  | blank hc _ ih =>
    rw [← ih rounds hle]
    cases rounds <;> simp [tokensWithin, hc]
  | token ht _ ih =>
    obtain ⟨c, tail, rfl, hdrop⟩ := dropWhile_isBlank_of_token ht
    obtain ⟨rounds, rfl⟩ : ∃ r, rounds = r + 1 := ⟨rounds - 1, by simp at hle; omega⟩
    simp [tokensWithin, hdrop, ht, ih rounds (by simpa using hle)]

end QueryEngine.Json
