import QueryEngine.Config.Text
import QueryEngine.Proofs.Json.Written

/-! Settings written and read back.

Whatever settings a program can come by fit 64 bits and have a capacity of one row at least
(`Sized`): reading a text sees to both, and each change keeps them. Sized settings are read
back from their text as they were, `ofText_toText`. -/
namespace QueryEngine.Config
open Json

/-- Settings that a program can come by: the standard ones or those of a text, then changed. -/
inductive Obtained : Config → Prop where
  | standard : Obtained standard
  | read {s c} : ofText s = .ok c → Obtained c
  | capacity {c n} : Obtained c → n ≤ maxCount → Obtained (c.withCapacity n)
  | limit {c n} : Obtained c → n ≤ maxCount → Obtained (c.withMemoryLimit n)
  | verify {c} (verify : Bool) : Obtained c → Obtained (c.withVerify verify)

/-- The numbers fit 64 bits, and a chunk can have a row. -/
structure Sized (c : Config) : Prop where
  positive : 1 ≤ c.capacity
  capacity : c.capacity ≤ maxCount
  limit : ∀ n, c.memoryLimit = some n → n ≤ maxCount

variable {c : Config} {g g' : Given} {s : String}

theorem sized_standard : standard.Sized := ⟨by decide, by decide, by simp [standard]⟩

theorem Sized.withCapacity (hc : c.Sized) {n : Nat} (hn : n ≤ maxCount) : (c.withCapacity n).Sized :=
  ⟨Nat.le_max_right n 1, Nat.max_le.mpr ⟨hn, by decide⟩, hc.limit⟩

theorem Sized.withMemoryLimit (hc : c.Sized) {n : Nat} (hn : n ≤ maxCount) : (c.withMemoryLimit n).Sized := by
  refine ⟨hc.positive, hc.capacity, fun m hm => ?_⟩
  obtain rfl : n = m := Option.some.inj hm
  exact hn

theorem Sized.withVerify (hc : c.Sized) (verify : Bool) : (c.withVerify verify).Sized :=
  ⟨hc.positive, hc.capacity, hc.limit⟩

/-! ### What a text gives -/

theorem count_le {v : JsonValue} {n : Nat} (h : count? v = some n) : n ≤ maxCount := by
  unfold count? at h
  split at h
  · split at h
    · simp_all
    · cases h
  · cases h

theorem limit_le {v : JsonValue} {l : Option Nat} (h : limit? v = some l) : ∀ n, l = some n → n ≤ maxCount := by
  unfold limit? at h
  split at h
  · cases h
    simp
  · obtain ⟨m, hm, rfl⟩ := Option.map_eq_some_iff.mp h
    rintro n ⟨⟩
    exact count_le hm

/-- The numbers given fit 64 bits. -/
structure Given.Fits (g : Given) : Prop where
  capacity : ∀ n, g.capacity = some n → n ≤ maxCount
  limit : ∀ l, g.limit = some l → ∀ n, l = some n → n ≤ maxCount

theorem Given.Fits.sized (hg : g.Fits) : g.config.Sized := by
  have hcap : g.capacity.getD Config.standard.capacity ≤ maxCount := by
    cases h : g.capacity with
    | none => exact sized_standard.capacity
    | some n => exact hg.capacity n h
  have hlimit : ∀ n, g.limit.getD Config.standard.memoryLimit = some n → n ≤ maxCount := by
    cases h : g.limit with
    | none => exact sized_standard.limit
    | some l => exact hg.limit l h
  exact ⟨Nat.le_max_right _ 1, Nat.max_le.mpr ⟨hcap, by decide⟩, hlimit⟩

theorem fits_ofItems {items : List JsonValue} (h : ofItems? items = some g) : g.Fits := by
  unfold ofItems? at h
  split at h
  · cases h
    exact ⟨by simp, by simp⟩
  · obtain ⟨n, hn, h⟩ := Option.bind_eq_some_iff.mp h
    cases h
    exact ⟨by rintro _ ⟨⟩; exact count_le hn, by simp⟩
  · obtain ⟨n, hn, h⟩ := Option.bind_eq_some_iff.mp h
    obtain ⟨l, hl, h⟩ := Option.bind_eq_some_iff.mp h
    cases h
    exact ⟨by rintro _ ⟨⟩; exact count_le hn, by rintro _ ⟨⟩; exact limit_le hl⟩
  · obtain ⟨n, hn, h⟩ := Option.bind_eq_some_iff.mp h
    obtain ⟨l, hl, h⟩ := Option.bind_eq_some_iff.mp h
    obtain ⟨v, -, h⟩ := Option.bind_eq_some_iff.mp h
    cases h
    exact ⟨by rintro _ ⟨⟩; exact count_le hn, by rintro _ ⟨⟩; exact limit_le hl⟩
  · cases h

/-- A member gives one setting, whose number fits, or none. -/
theorem Given.Fits.member (hg : g.Fits) {m : Option String × JsonValue} (h : member? g m = some g') : g'.Fits := by
  unfold member? at h
  split at h
  · cases h
  · split at h <;> try split at h
    · cases h
    · obtain ⟨n, hn, h⟩ := Option.bind_eq_some_iff.mp h
      cases h
      exact ⟨by rintro _ ⟨⟩; exact count_le hn, hg.limit⟩
    · cases h
    · obtain ⟨l, hl, h⟩ := Option.bind_eq_some_iff.mp h
      cases h
      exact ⟨hg.capacity, by rintro _ ⟨⟩; exact limit_le hl⟩
    · cases h
    · obtain ⟨v, -, h⟩ := Option.bind_eq_some_iff.mp h
      cases h
      exact ⟨hg.capacity, hg.limit⟩
    · cases h
      exact hg

theorem Given.Fits.members {ms : List (Option String × JsonValue)} (hg : g.Fits) (h : ms.foldlM member? g = some g') :
    g'.Fits := by
  induction ms generalizing g with
  | nil =>
    obtain rfl : g = g' := Option.some.inj h
    exact hg
  | cons m ms ih =>
    rw [List.foldlM_cons] at h
    obtain ⟨next, hnext, h⟩ := Option.bind_eq_some_iff.mp h
    exact ih (hg.member hnext) h

theorem sized_ofText (h : ofText s = .ok c) : c.Sized := by
  unfold ofText at h
  split at h
  · rename_i hread
    cases h
    obtain ⟨v, -, hv⟩ := Option.bind_eq_some_iff.mp hread
    unfold ofJson? at hv
    split at hv
    · obtain ⟨g, hg, rfl⟩ := Option.map_eq_some_iff.mp hv
      exact (fits_ofItems hg).sized
    · obtain ⟨g, hg, rfl⟩ := Option.map_eq_some_iff.mp hv
      exact (Given.Fits.members ⟨by simp, by simp⟩ hg).sized
    · cases hv
  · cases h

theorem Obtained.sized (h : Obtained c) : c.Sized := by
  induction h with
  | standard => exact sized_standard
  | read h => exact sized_ofText h
  | capacity _ hn ih => exact ih.withCapacity hn
  | limit _ hn ih => exact ih.withMemoryLimit hn
  | verify v _ ih => exact ih.withVerify v

/-! ### Reading what was written -/

/-- The value that a limit is written as. -/
def limitJson : Option Nat → JsonValue
  | some n => .number (some n)
  | none => .null

def limitToken : Option Nat → Token
  | some n => .number (some n)
  | none => .null

/-- The tokens of settings that were written. -/
def tokensOf (c : Config) : List Token :=
  [.leftBrace, .text (some "chunk_capacity"), .colon, .number (some c.capacity), .comma,
    .text (some "memory_limit"), .colon, limitToken c.memoryLimit, .comma,
    .text (some "verify_chunks"), .colon, .boolean c.verify, .rightBrace]

/-- The characters of a setting on a line of its own, and what follows it. -/
def settingChars (name value rest : List Char) : List Char :=
  '\n' :: ' ' :: ' ' :: '"' :: (name ++ '"' :: ':' :: ' ' :: (value ++ rest))

theorem toList_toText (c : Config) :
    c.toText.toList =
      '\x7b' :: settingChars "chunk_capacity".toList (Nat.toDigits 10 c.capacity)
        (',' :: settingChars "memory_limit".toList (limitText c.memoryLimit).toList
          (',' :: settingChars "verify_chunks".toList (flagText c.verify).toList ['\n', '\x7d'])) := by
  have hopen : "\x7b\n  \"chunk_capacity\": ".toList =
      '\x7b' :: '\n' :: ' ' :: ' ' :: '"' :: ("chunk_capacity".toList ++ ['"', ':', ' ']) := by simp
  have hlimit : ",\n  \"memory_limit\": ".toList =
      ',' :: '\n' :: ' ' :: ' ' :: '"' :: ("memory_limit".toList ++ ['"', ':', ' ']) := by simp
  have hverify : ",\n  \"verify_chunks\": ".toList =
      ',' :: '\n' :: ' ' :: ' ' :: '"' :: ("verify_chunks".toList ++ ['"', ':', ' ']) := by simp
  have hclose : "\n\x7d".toList = ['\n', '\x7d'] := by simp
  have hcapacity : (toString c.capacity).toList = Nat.toDigits 10 c.capacity := by simp
  unfold toText
  simp only [String.toList_append, hopen, hlimit, hverify, hclose, hcapacity, settingChars, List.cons_append,
    List.append_assoc, List.nil_append]

theorem endsNumber_comma (s : List Char) : EndsNumber (',' :: s) :=
  endsNumber_cons s (by decide) (by decide) (by decide) (by decide)

theorem takeToken_limit (l : Option Nat) (s : List Char) :
    takeToken ((limitText l).toList ++ ',' :: s) = some (limitToken l, ',' :: s) := by
  cases l with
  | none => rfl
  | some n => simpa [limitText, limitToken] using takeToken_toDigits n (endsNumber_comma s)

theorem takeToken_flag (b : Bool) (s : List Char) : takeToken ((flagText b).toList ++ s) = some (.boolean b, s) := by
  cases b <;> rfl

theorem falls_setting (name : List Char) {value rest : List Char} {t : Token} {ts : List Token}
    (hname : ∀ c ∈ name, Plain c) (hvalue : takeToken (value ++ rest) = some (t, rest)) (h : Falls rest ts) :
    Falls (settingChars name value rest) (.text (some (String.ofList name)) :: .colon :: t :: ts) := by
  refine .blank rfl (.blank rfl (.blank rfl (.token (takeToken_text hname _) ?_)))
  exact .token rfl (.blank rfl (.token hvalue h))

theorem falls_toText (c : Config) : Falls c.toText.toList c.tokensOf := by
  rw [toList_toText]
  have hclose : Falls ['\n', '\x7d'] [.rightBrace] := .blank rfl (.token rfl .done)
  have hverify := falls_setting "verify_chunks".toList (by simp [Plain]) (takeToken_flag c.verify _) hclose
  have hlimit := falls_setting "memory_limit".toList (by simp [Plain]) (takeToken_limit c.memoryLimit _)
    (.token rfl hverify)
  have hcapacity := falls_setting "chunk_capacity".toList (by simp [Plain])
    (takeToken_toDigits c.capacity (endsNumber_comma _)) (.token rfl hlimit)
  exact .token rfl hcapacity

theorem limit_limitJson {l : Option Nat} (hl : ∀ n, l = some n → n ≤ maxCount) : limit? (limitJson l) = some l := by
  cases l with
  | none => rfl
  | some n => simp [limitJson, limit?, count?, hl n rfl]

/-- The value that settings are written as. -/
def written (c : Config) : JsonValue :=
  .object [(some "chunk_capacity", .number (some c.capacity)), (some "memory_limit", limitJson c.memoryLimit),
    (some "verify_chunks", .boolean c.verify)]

theorem ofJson_written (hc : c.Sized) : ofJson? c.written = some c := by
  have hcapacity : max c.capacity 1 = c.capacity := Nat.max_eq_left hc.positive
  simp [written, ofJson?, member?, count?, hc.capacity, limit_limitJson hc.limit, flag?, Given.config,
    Config.withCapacity, hcapacity]

theorem take_tokensOf (c : Config) : JsonValue.take (2 * c.tokensOf.length + 1) c.tokensOf = some (c.written, []) := by
  cases h : c.memoryLimit <;> simp [tokensOf, written, limitToken, limitJson, h, JsonValue.take, JsonValue.takeMembers]

theorem ofText_toText (hc : c.Sized) : ofText c.toText = .ok c := by
  have hlen : c.tokensOf.length ≤ c.toText.toList.length := by
    rw [toList_toText]
    simp [tokensOf, settingChars]
  have htokens : tokens? c.toText = some c.tokensOf := tokensWithin_of_falls (falls_toText c) _ hlen
  simp [ofText, JsonValue.ofText?, htokens, take_tokensOf, ofJson_written hc]

/-- Settings survive their text: every configuration that a program can come by is read back
from what it is written as, and what is read from any text, whatever that text leaves out or
adds, is read again from its own text. -/
theorem obtained_survives :
    (∀ c, Obtained c → 1 ≤ c.capacity ∧ ofText c.toText = .ok c) ∧
      ∀ s c, ofText s = .ok c → ofText c.toText = .ok c :=
  ⟨fun _ h => ⟨h.sized.positive, ofText_toText h.sized⟩, fun _ _ h => ofText_toText (sized_ofText h)⟩

/-- A capacity of zero, a member of no meaning, and then the greatest limit there is. -/
theorem obtained_survives_extremes :
    ofText "\x7b\"chunk_capacity\": 0, \"more\": [1.5, null]\x7d" = .ok ⟨1, none, true⟩ ∧
      1 ≤ (withMemoryLimit ⟨1, none, true⟩ maxCount).capacity ∧
      ofText (toText ⟨1, some maxCount, true⟩) = .ok ⟨1, some maxCount, true⟩ ∧
      ofText (toText ⟨1, none, true⟩) = .ok ⟨1, none, true⟩ := by
  have hread : ofText "\x7b\"chunk_capacity\": 0, \"more\": [1.5, null]\x7d" = .ok ⟨1, none, true⟩ := by cbv
  have hlimit := obtained_survives.1 _ (.limit (.read hread) (Nat.le_refl maxCount))
  exact ⟨hread, hlimit.1, hlimit.2, obtained_survives.2 _ _ hread⟩

end QueryEngine.Config
