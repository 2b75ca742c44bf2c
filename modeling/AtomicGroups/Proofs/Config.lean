import Mathlib
import AtomicGroups.Config.Environment

/-!
# Limits from the environment

What a variable has to hold to set a limit is said without reading it: white space around a numeral
(`Text.IsNumeral`) of a number that may be set (`Config.Sets`).  A configuration from the environment
has the limits that are set, the default ones for the rest, and can be used
(`Config.ofEnvironment_valid`).
-/

namespace AtomicGroups

namespace Text

/-! ## White space -/

/-- What is taken away at either end is white space. -/
theorem exists_trim (cs : List Char) : ∃ before after, cs = before ++ trim cs ++ after ∧
    (∀ c ∈ before, isBlank c) ∧ ∀ c ∈ after, isBlank c := by
  refine ⟨cs.takeWhile isBlank, (cs.dropWhile isBlank).rtakeWhile isBlank, ?_,
    fun c => List.mem_takeWhile_imp, fun c => List.mem_rtakeWhile_imp⟩
  change cs = cs.takeWhile isBlank ++ (cs.dropWhile isBlank).rdropWhile isBlank ++ _
  rw [List.append_assoc, List.rdropWhile_append_rtakeWhile, List.takeWhile_append_dropWhile]

/-- Of a text with no white space in it, only what stands around it is taken away. -/
theorem trim_append {before text after : List Char} (hb : ∀ c ∈ before, isBlank c)
    (ht : ∀ c ∈ text, ¬ isBlank c) (ha : ∀ c ∈ after, isBlank c) :
    trim (before ++ text ++ after) = text := by
  have hreverse : ∀ c ∈ after.reverse, isBlank c := fun c hc => ha c (List.mem_reverse.1 hc)
  unfold trim
  rw [List.append_assoc, List.dropWhile_append_of_pos hb]
  cases text with
  | nil =>
    rw [List.nil_append, List.dropWhile_eq_nil_iff.2 ha]
    rfl
  | cons c cs =>
    have hend : (c :: cs).reverse.dropWhile isBlank = (c :: cs).reverse := by
      cases hr : (c :: cs).reverse with
      | nil => rfl
      | cons d ds =>
        exact List.dropWhile_cons_of_neg (ht d (List.mem_reverse.1 (hr ▸ List.mem_cons_self)))
    rw [List.cons_append, List.dropWhile_cons_of_neg (ht c List.mem_cons_self), ← List.cons_append,
      List.reverse_append, List.dropWhile_append_of_pos hreverse, hend, List.reverse_reverse]

/-! ## Numerals -/

/-- The number that decimal digits denote, the last one being that of the ones. -/
def decimal (digits : List Char) : Nat :=
  Nat.ofDigits 10 (digits.reverse.map fun c => c.toNat - '0'.toNat)

/-- A text of one or more decimal digits, behind one plus sign or none, and the number that the
digits denote. -/
inductive IsNumeral : List Char → Nat → Prop
  | unsigned {digits : List Char} : digits ≠ [] → (∀ c ∈ digits, c.isDigit) →
    IsNumeral digits (decimal digits)
  | signed {digits : List Char} : digits ≠ [] → (∀ c ∈ digits, c.isDigit) →
    IsNumeral ('+' :: digits) (decimal digits)

theorem digitsValue_eq_decimal (ds : List Char) : digitsValue ds = decimal ds := by
  induction ds using List.reverseRecOn with
  | nil => rfl
  | append_singleton ds c ih =>
    have hstep : digitsValue (ds ++ [c]) = appendDigit (digitsValue ds) c :=
      List.foldl_append
    rw [hstep, ih, decimal, decimal, List.reverse_append, List.reverse_singleton,
      List.singleton_append, List.map_cons, Nat.ofDigits_cons, appendDigit]
    omega

theorem naturalUpTo?_eq_some_iff {max n : Nat} {cs : List Char} : naturalUpTo? max cs = some n ↔
    cs ≠ [] ∧ (∀ c ∈ cs, c.isDigit) ∧ decimal cs = n ∧ n ≤ max := by
  unfold naturalUpTo?
  rw [digitsUpTo?_eq, digitsValue_eq_decimal]
  simp only [List.all_eq_true, Option.ite_none_right_eq_some, Option.some.injEq]
  constructor
  · rintro ⟨⟨hne, hd⟩, hle, rfl⟩
    exact ⟨hne, hd, rfl, hle⟩
  · rintro ⟨hne, hd, rfl, hle⟩
    exact ⟨⟨hne, hd⟩, hle, rfl⟩

theorem word?_eq_some_iff {cs : List Char} {n : Nat} :
    word? cs = some n ↔ IsNumeral cs n ∧ n ≤ maxWord := by
  unfold word?
  split
  · next digits =>
    rw [naturalUpTo?_eq_some_iff]
    constructor
    · rintro ⟨hne, hd, rfl, hle⟩
      exact ⟨.signed hne hd, hle⟩
    · rintro ⟨hn, hle⟩
      cases hn with
      | unsigned _ hd => exact absurd (hd _ List.mem_cons_self) (by decide)
      | signed hne hd => exact ⟨hne, hd, rfl, hle⟩
  · next digits hsign =>
    rw [naturalUpTo?_eq_some_iff]
    constructor
    · rintro ⟨hne, hd, rfl, hle⟩
      exact ⟨.unsigned hne hd, hle⟩
    · rintro ⟨hn, hle⟩
      cases hn with
      | unsigned hne hd => exact ⟨hne, hd, rfl, hle⟩
      | signed _ _ => exact absurd rfl (hsign _)

theorem IsNumeral.not_isBlank {cs : List Char} {n : Nat} (h : IsNumeral cs n) :
    ∀ c ∈ cs, ¬ isBlank c := by
  have hdigit (c : Char) (hc : c.isDigit) : ¬ isBlank c := by
    have hrange : 48 ≤ c.toNat ∧ c.toNat ≤ 57 := by
      simpa [Char.isDigit, UInt32.le_iff_toNat_le] using hc
    simp only [isBlank, blankRanges, List.any_cons, List.any_nil, Bool.or_eq_true, decide_eq_true_eq,
      Bool.false_eq_true, or_false]
    omega
  cases h with
  | unsigned _ hd => exact fun c hc => hdigit c (hd c hc)
  | signed _ hd => exact List.forall_mem_cons.2 ⟨by decide, fun c hc => hdigit c (hd c hc)⟩

end Text

namespace Config

open Text

/-- `Sets max content n` says that a variable with this content sets a limit to `n`: it holds a
numeral of this number, white space around it or none, and the number is from one to `max`. -/
inductive Sets (max : Nat) : Bytes → Nat → Prop
  | mk {before numeral after : List Char} {n : Nat} :
    (∀ c ∈ before, isBlank c) → IsNumeral numeral n → (∀ c ∈ after, isBlank c) →
    1 ≤ n → n ≤ max →
    Sets max (Bytes.ofString (String.ofList (before ++ numeral ++ after))) n

theorem limit?_eq_some_iff {max n : Nat} {content : Bytes} (hmax : max ≤ maxWord) :
    limit? max content = some n ↔ Sets max content n := by
  unfold limit?
  simp only [Option.bind_eq_bind, Option.bind_eq_some_iff, Bytes.toString?_eq_some_iff,
    word?_eq_some_iff, Option.ite_none_right_eq_some, Option.some.injEq]
  constructor
  · rintro ⟨text, rfl, n, ⟨hn, -⟩, ⟨hpos, hle⟩, rfl⟩
    obtain ⟨before, after, heq, hb, ha⟩ := exists_trim text.toList
    have hset := Sets.mk hb hn ha hpos hle
    rwa [← heq, String.ofList_toList] at hset
  · rintro @⟨before, numeral, after, _, hb, hn, ha, hpos, hle⟩
    refine ⟨_, rfl, n, ⟨?_, hle.trans hmax⟩, ⟨hpos, hle⟩, rfl⟩
    rwa [String.toList_ofList, trim_append hb hn.not_isBlank ha]

/-- What a limit is that the environment sets by a variable: a number that the variable sets it to,
or, if there is none, the default. -/
def IsLimit (env : Environment) (name : String) (max fallback n : Nat) : Prop :=
  (∃ content, env name = some content ∧ Sets max content n) ∨
    n = fallback ∧ ∀ content, env name = some content → ∀ m, ¬ Sets max content m

theorem isLimit_iff {env : Environment} {name : String} {max fallback n : Nat}
    (hmax : max ≤ maxWord) : IsLimit env name max fallback n ↔
      ((env name).bind (limit? max)).getD fallback = n := by
  unfold IsLimit
  simp only [← limit?_eq_some_iff hmax]
  cases henv : env name with
  | none => simp [eq_comm]
  | some content => cases hlimit : limit? max content <;> simp [hlimit, eq_comm]

/-- What a limit is lies in the range of what may be set, as the default does. -/
theorem IsLimit.mem_range {env : Environment} {name : String} {max fallback n : Nat}
    (h : IsLimit env name max fallback n) (hpos : 1 ≤ fallback) (hle : fallback ≤ max) :
    1 ≤ n ∧ n ≤ max := by
  rcases h with ⟨content, -, -, -, -, hpos', hle'⟩ | ⟨rfl, -⟩
  · exact ⟨hpos', hle'⟩
  · exact ⟨hpos, hle⟩

theorem validate_eq_ok_iff {c : Config} : c.validate = .ok () ↔
    1 ≤ c.maxBatch ∧ 1 ≤ c.maxGroup ∧ (1 ≤ c.limits.maxDepth ∧ c.limits.maxDepth ≤ depthCeiling) ∧
      1 ≤ c.limits.maxEntries := by
  unfold validate
  have hfind : c.settings.find? (fun setting => setting.2 = 0) = none ↔ 1 ≤ c.maxBatch ∧
      1 ≤ c.maxGroup ∧ 1 ≤ c.limits.maxDepth ∧ 1 ≤ c.limits.maxEntries := by
    simp [settings, Nat.one_le_iff_ne_zero]
  split
  · next name _ hzero =>
    rw [hzero] at hfind
    exact iff_of_false (by simp) fun h => absurd (hfind.2 ⟨h.1, h.2.1, h.2.2.1.1, h.2.2.2⟩) (by simp)
  · next hnone =>
    have hpos := hfind.1 hnone
    split_ifs with hdeep
    · exact iff_of_false (by simp) (by omega)
    · exact iff_of_true rfl (by omega)

/-- Whatever the environment holds, the configuration that it gives can be used.  Each of three limits
depends on one variable alone: it is the number to which that variable sets it, and the default if
there is none. -/
theorem ofEnvironment_valid (env : Environment) :
    (ofEnvironment env).validate = .ok () ∧
    (∀ n, (ofEnvironment env).maxBatch = n ↔ IsLimit env batchVariable (2 ^ 64 - 1) 1024 n) ∧
    (∀ n, (ofEnvironment env).maxGroup = n ↔ IsLimit env groupVariable (2 ^ 64 - 1) 16 n) ∧
    (∀ n, (ofEnvironment env).limits.maxDepth = n ↔ IsLimit env depthVariable 64 16 n) ∧
    (ofEnvironment env).limits.maxEntries = 65536 := by
  have hbatch (n : Nat) : (ofEnvironment env).maxBatch = n ↔
      IsLimit env batchVariable (2 ^ 64 - 1) 1024 n := (isLimit_iff (by decide)).symm
  have hgroup (n : Nat) : (ofEnvironment env).maxGroup = n ↔
      IsLimit env groupVariable (2 ^ 64 - 1) 16 n := (isLimit_iff (by decide)).symm
  have hdepth (n : Nat) : (ofEnvironment env).limits.maxDepth = n ↔
      IsLimit env depthVariable 64 16 n := (isLimit_iff (by decide)).symm
  refine ⟨validate_eq_ok_iff.2 ⟨?_, ?_, ?_, Nat.succ_pos 65535⟩, hbatch, hgroup, hdepth, rfl⟩
  · exact (((hbatch _).1 rfl).mem_range (by decide) (by decide)).1
  · exact (((hgroup _).1 rfl).mem_range (by decide) (by decide)).1
  · exact ((hdepth _).1 rfl).mem_range (by decide) (by decide)

/-- A plus sign and a line feed do no harm, words and numbers beyond the ceiling are ignored. -/
example : ofEnvironment (fun name =>
    if name = batchVariable then some (Bytes.ofString " +0032\n")
    else if name = groupVariable then some (Bytes.ofString "sixteen")
    else some (Bytes.ofString "65")) = { maxBatch := 32 } := by
  cbv

end Config

end AtomicGroups
