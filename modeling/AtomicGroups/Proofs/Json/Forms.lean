import Mathlib
import AtomicGroups.Json.Forms
import AtomicGroups.Proofs.Config
import AtomicGroups.Proofs.Json.Spelling
import AtomicGroups.Proofs.Json.Text
import AtomicGroups.Proofs.Segment.Shape

/-!
# What is written is read back

The texts that are written for limits, configurations, digests, transactions, runs and assignments
spell values from which the same is read.  Numbers are read up to a bound, so those of a structure
have to be within 64 bits (`Config.InWords`, …).  The order of the members of an object says nothing
(`fields?_eq_of_perm`).
-/

namespace AtomicGroups

namespace Json

/-! ## Numbers -/

theorem digitsValue_toDigits (n : Nat) : AtomicGroups.Text.digitsValue (Nat.toDigits 10 n) = n := by
  have happend : AtomicGroups.Text.appendDigit = fun n c => 10 * n + (c.toNat - '0'.toNat) := by
    funext n c
    rw [AtomicGroups.Text.appendDigit, Nat.mul_comm]
  rw [AtomicGroups.Text.digitsValue, happend, ← Nat.ofDigitChars_eq_foldl,
    Nat.ofDigitChars_ten_toDigits]

/-- Only zero is written with a leading zero. -/
theorem toDigits_of_head?_eq_zero {n : Nat} (h : (Nat.toDigits 10 n).head? = some '0') :
    Nat.toDigits 10 n = ['0'] := by
  induction n using Nat.strongRecOn with
  | ind n ih =>
    by_cases hn : n < 10
    · rw [Nat.toDigits_of_lt_base hn] at h ⊢
      simpa using h
    · have hdigits := Nat.toDigits_of_base_le (b := 10) (by decide) (Nat.le_of_not_lt hn)
      rw [hdigits, List.head?_append_of_ne_nil _ Nat.toDigits_ne_nil] at h
      have hzero := digitsValue_toDigits (n / 10)
      rw [ih (n / 10) (by omega) h] at hzero
      have : n / 10 = 0 := hzero.symm
      omega

/-! ## Forms -/

/-- `IsForm read text x` says that the text spells a value that is read as `x`. -/
def IsForm {α : Type} (read : Json → Option α) (text : String) (x : α) : Prop :=
  ∃ j, Spells text.toList j ∧ read j = some x

variable {α β : Type} {read : Json → Option α} {text : String} {x : α} {n : Nat}

theorem IsForm.bind_parse? (h : IsForm read text x) : (parse? text).bind read = some x := by
  obtain ⟨j, hspells, hread⟩ := h
  rw [hspells.parse?_eq_some, Option.bind_some, hread]

theorem IsForm.bind {f : α → Option β} {y : β} (h : IsForm read text x) (hf : f x = some y) :
    IsForm (fun j => (read j).bind f) text y := by
  obtain ⟨j, hspells, hread⟩ := h
  exact ⟨j, hspells, by simp [hread, hf]⟩

theorem isForm_repr {max : Nat} (h : n ≤ max) : IsForm (naturalUpTo? max) n.repr n := by
  refine ⟨.number (.natural (Nat.toDigits 10 n)), ?_, ?_⟩
  · rw [Nat.repr_eq_ofList_toDigits, String.toList_ofList]
    exact spells_digits Nat.toDigits_ne_nil
      (fun c hc => Nat.isDigit_of_mem_toDigits (by decide) (by decide) hc)
      toDigits_of_head?_eq_zero
  · rw [naturalUpTo?, AtomicGroups.Text.digitsUpTo?_eq, digitsValue_toDigits, if_pos h]

theorem isForm_word (h : n ≤ AtomicGroups.Text.maxWord) : IsForm word? n.repr n := isForm_repr h

theorem word?_le {j : Json} (h : word? j = some n) : n ≤ AtomicGroups.Text.maxWord := by
  unfold word? naturalUpTo? at h
  split at h
  · rw [AtomicGroups.Text.digitsUpTo?_eq] at h
    split at h
    · cases h
      assumption
    · cases h
  · cases h

/-! ### Lists -/

theorem mapM_eq_some_iff {f : α → Option β} {as : List α} {bs : List β} :
    as.mapM f = some bs ↔ List.Forall₂ (fun a b => f a = some b) as bs := by
  induction as generalizing bs with
  | nil => simp [eq_comm]
  | cons a as ih =>
    rw [List.forall₂_cons_left_iff]
    simp only [List.mapM_cons, Option.bind_eq_bind, Option.bind_eq_some_iff, ih]
    constructor
    · rintro ⟨b, hb, bs, hbs, h⟩
      cases h
      exact ⟨b, bs, hb, hbs, rfl⟩
    · rintro ⟨b, bs, hb, hbs, rfl⟩
      exact ⟨b, hb, bs, hbs, rfl⟩

theorem isForm_list {write : α → String} {xs : List α} (h : ∀ x ∈ xs, IsForm read (write x) x) :
    IsForm (list? read) (writeArray (xs.map write)) xs := by
  have hitems : List.Forall₂ (fun x y => ∃ j, Spells (write x).toList j ∧ read j = some y) xs xs :=
    List.forall₂_same.2 h
  obtain ⟨js, hspells, hread⟩ := exists_forall₂ hitems
  refine ⟨.array js, ?_, mapM_eq_some_iff.2 hread⟩
  rw [writeArray, String.toList_append, String.toList_append, String.toList_intercalate,
    List.map_map]
  exact spells_array (List.forall₂_map_left_iff.2 hspells)

theorem isForm_writeNaturals {ns : List Nat} (h : ∀ n ∈ ns, n ≤ AtomicGroups.Text.maxWord) :
    IsForm (list? word?) (writeNaturals ns) ns :=
  isForm_list fun n hn => isForm_word (h n hn)

theorem isForm_writeBytes (bs : Bytes) : IsForm bytes? (writeBytes bs) bs := by
  unfold writeBytes writeNaturals
  rw [List.map_map]
  refine isForm_list fun b _ => ?_
  have hb : b.toNat ≤ 255 := Nat.le_of_lt_succ b.toNat_lt
  obtain ⟨j, hspells, hread⟩ := isForm_repr hb
  exact ⟨j, hspells, by simp [hread]⟩

theorem of_mem_of_list? {j : Json} {xs : List α} (h : list? read j = some xs) (hx : x ∈ xs) :
    ∃ item, read item = some x := by
  unfold list? at h
  split at h
  · next items =>
    obtain ⟨hlength, hitems⟩ := List.forall₂_iff_get.1 (mapM_eq_some_iff.1 h)
    obtain ⟨i, hi, rfl⟩ := List.mem_iff_getElem.1 hx
    exact ⟨_, hitems i (hlength ▸ hi) hi⟩
  · cases h

/-! ### Objects -/

/-- The member that a key names. -/
theorem filter_key_eq {members : List (Text × Json)} {key : Text} {j : Json}
    (hdistinct : (members.map Prod.fst).Nodup) (h : (key, j) ∈ members) :
    (members.filter fun (k, _) => k = key) = [(key, j)] := by
  induction members with
  | nil => cases h
  | cons member members ih =>
    rw [List.map_cons, List.nodup_cons] at hdistinct
    cases h with
    | head =>
      have hlater : (members.filter fun (k, _) => k = key) = [] := by
        rw [List.filter_eq_nil_iff]
        rintro ⟨k, j⟩ hmem hk
        obtain rfl : k = key := by simpa using hk
        exact hdistinct.1 (List.mem_map.2 ⟨_, hmem, rfl⟩)
      simp [hlater]
    | tail _ h =>
      have hne : member.1 ≠ key := by
        rintro rfl
        exact hdistinct.1 (List.mem_map.2 ⟨_, h, rfl⟩)
      simpa [hne] using ih hdistinct.2 h

variable {names : List String} {js : List Json} {members members' : List (Text × Json)}

/-- The members of an object with the given names and values. -/
def membersOf (names : List String) (js : List Json) : List (Text × Json) :=
  (names.map Text.ofString).zip js

/-- Each name has to be the key of exactly one member; members with other keys say nothing. -/
theorem fields?_object_eq_some_iff : fields? names (.object members) = some js ↔
    (∀ member ∈ members, member.1.isWellFormed = true) ∧
      List.Forall₂ (fun name j => ∃ key,
        (members.filter fun (k, _) => k = Text.ofString name) = [(key, j)]) names js := by
  simp only [fields?, Option.ite_none_right_eq_some, List.all_eq_true, mapM_eq_some_iff]
  refine and_congr_right fun _ => ⟨fun h => h.imp fun name j hj => ?_, fun h =>
    h.imp fun name j hj => ?_⟩
  · split at hj
    · next key v hone =>
      cases hj
      exact ⟨key, hone⟩
    · cases hj
  · obtain ⟨key, hone⟩ := hj
    rw [hone]

theorem fields?_of_perm (h : members.Perm members')
    (hfields : fields? names (.object members) = some js) :
    fields? names (.object members') = some js := by
  rw [fields?_object_eq_some_iff] at hfields ⊢
  refine ⟨fun member hmember => hfields.1 member (h.mem_iff.2 hmember), hfields.2.imp ?_⟩
  rintro name j ⟨key, hkey⟩
  have hfilter := h.filter fun (k, _) => k = Text.ofString name
  rw [hkey] at hfilter
  exact ⟨key, List.perm_singleton.1 hfilter.symm⟩

/-- The fields of an object do not depend on the order of its members. -/
theorem fields?_eq_of_perm (h : members.Perm members') :
    fields? names (.object members) = fields? names (.object members') :=
  Option.ext fun _ => ⟨fields?_of_perm h, fields?_of_perm h.symm⟩

theorem fields?_membersOf (hdistinct : names.Nodup) (hlength : names.length = js.length) :
    fields? names (.object (membersOf names js)) = some js := by
  have hkeys : (membersOf names js).map Prod.fst = names.map Text.ofString :=
    List.map_fst_zip (by simp [hlength])
  rw [fields?_object_eq_some_iff]
  refine ⟨?_, List.forall₂_iff_zip.2 ⟨hlength, ?_⟩⟩
  · intro member hmember
    have hkey : member.1 ∈ names.map Text.ofString := hkeys ▸ List.mem_map_of_mem hmember
    obtain ⟨name, -, hname⟩ := List.mem_map.1 hkey
    rw [← hname]
    exact Text.isWellFormed_ofString name
  · intro name j hzip
    have hmem : (Text.ofString name, j) ∈ membersOf names js := by
      unfold membersOf
      rw [List.zip_map_left]
      exact List.mem_map_of_mem hzip
    exact ⟨_, filter_key_eq (hkeys ▸ hdistinct.map Text.ofString_injective) hmem⟩

theorem isForm_writeObject (names : List String) {texts : List String} (hdistinct : names.Nodup)
    (hplain : ∀ name ∈ names, name.toList.all Token.IsPlain = true)
    (h : List.Forall₂ (fun text j => Spells text.toList j) texts js)
    (hlength : names.length = texts.length) :
    IsForm (fields? names) (writeObject (names.zip texts)) js := by
  refine ⟨.object (membersOf names js), ?_, fields?_membersOf hdistinct (hlength.trans h.length_eq)⟩
  rw [writeObject, String.toList_append, String.toList_append, String.toList_intercalate]
  refine spells_object ?_
  clear hdistinct
  induction h generalizing names with
  | nil => simp [membersOf]
  | @cons text j texts js hfirst hlater ih =>
    cases names with
    | nil => cases hlength
    | cons name names =>
      obtain ⟨hname, hnames⟩ := List.forall_mem_cons.1 hplain
      refine .cons ⟨name, text.toList, ?_, ?_, rfl, hfirst⟩
        (ih names hnames (Nat.succ.inj hlength))
      · simp
      · simpa using hname

end Json

open Json

/-! ## Structures -/

theorem Digest.isForm_toJson (d : Digest) : IsForm Digest.ofJson? d.toJson d :=
  (isForm_writeBytes d.bytes).bind (Digest.ofBytes?_bytes d)

theorem Transaction.isForm_toJson (tx : Transaction) : IsForm Transaction.ofJson? tx.toJson tx := by
  obtain ⟨j, hspells, hread⟩ := isForm_writeBytes tx.bytes
  exact ⟨j, hspells, by simp [Transaction.ofJson?, hread]⟩

/-- The numbers are within 64 bits. -/
structure Limits.InWords (l : Limits) : Prop where
  depth : l.maxDepth ≤ Text.maxWord
  entries : l.maxEntries ≤ Text.maxWord

theorem Limits.isForm_toJson {l : Limits} (h : l.InWords) : IsForm Limits.ofJson? l.toJson l := by
  obtain ⟨depth, hdepth, hreadDepth⟩ := isForm_word h.depth
  obtain ⟨entries, hentries, hreadEntries⟩ := isForm_word h.entries
  refine (isForm_writeObject Limits.jsonFields (by decide) (by decide)
    (.cons hdepth (.cons hentries .nil)) rfl).bind ?_
  simp [hreadDepth, hreadEntries]

theorem Limits.inWords_of_ofJson? {j : Json} {l : Limits} (h : Limits.ofJson? j = some l) :
    l.InWords := by
  simp only [Limits.ofJson?, Option.bind_eq_bind, Option.bind_eq_some_iff] at h
  obtain ⟨values, -, h⟩ := h
  split at h
  · simp only [Option.bind_eq_some_iff] at h
    obtain ⟨depth, hdepth, entries, hentries, h⟩ := h
    cases h
    exact ⟨word?_le hdepth, word?_le hentries⟩
  · cases h

/-- The numbers are within 64 bits. -/
structure Config.InWords (c : Config) : Prop where
  batch : c.maxBatch ≤ Text.maxWord
  group : c.maxGroup ≤ Text.maxWord
  limits : c.limits.InWords

theorem Config.isForm_toJson {c : Config} (h : c.InWords) : IsForm Config.ofJson? c.toJson c := by
  obtain ⟨batch, hbatch, hreadBatch⟩ := isForm_word h.batch
  obtain ⟨group, hgroup, hreadGroup⟩ := isForm_word h.group
  obtain ⟨limits, hlimits, hreadLimits⟩ := Limits.isForm_toJson h.limits
  refine (isForm_writeObject Config.jsonFields (by decide) (by decide)
    (.cons hbatch (.cons hgroup (.cons hlimits .nil))) rfl).bind ?_
  simp [hreadBatch, hreadGroup, hreadLimits]

theorem Config.inWords_of_ofJson? {j : Json} {c : Config} (h : Config.ofJson? j = some c) :
    c.InWords := by
  simp only [Config.ofJson?, Option.bind_eq_bind, Option.bind_eq_some_iff] at h
  obtain ⟨values, -, h⟩ := h
  split at h
  · simp only [Option.bind_eq_some_iff] at h
    obtain ⟨batch, hbatch, group, hgroup, limits, hlimits, h⟩ := h
    cases h
    exact ⟨word?_le hbatch, word?_le hgroup, Limits.inWords_of_ofJson? hlimits⟩
  · cases h

/-- The numbers are within 64 bits. -/
structure Run.InWords (r : Run) : Prop where
  index : r.index ≤ Text.maxWord
  start : r.start ≤ Text.maxWord
  stop : r.stop ≤ Text.maxWord

theorem Run.isForm_toJson {r : Run} (h : r.InWords) : IsForm Run.ofJson? r.toJson r := by
  obtain ⟨index, hindex, hreadIndex⟩ := isForm_word h.index
  obtain ⟨start, hstart, hreadStart⟩ := isForm_word h.start
  obtain ⟨stop, hstop, hreadStop⟩ := isForm_word h.stop
  obtain ⟨group, hgroup, hreadGroup⟩ := Digest.isForm_toJson r.group
  refine (isForm_writeObject Run.jsonFields (by decide) (by decide)
    (.cons hindex (.cons hstart (.cons hstop (.cons hgroup .nil)))) rfl).bind ?_
  simp [hreadIndex, hreadStart, hreadStop, hreadGroup]

theorem Run.inWords_of_ofJson? {j : Json} {r : Run} (h : Run.ofJson? j = some r) : r.InWords := by
  simp only [Run.ofJson?, Option.bind_eq_bind, Option.bind_eq_some_iff] at h
  obtain ⟨values, -, h⟩ := h
  split at h
  · simp only [Option.bind_eq_some_iff] at h
    obtain ⟨index, hindex, start, hstart, stop, hstop, group, -, h⟩ := h
    cases h
    exact ⟨word?_le hindex, word?_le hstart, word?_le hstop⟩
  · cases h

/-- The numbers are within 64 bits. -/
structure Assignment.InWords (a : Assignment) : Prop where
  indices : ∀ index ∈ a.indices.toList, index ≤ Text.maxWord
  runs : ∀ r ∈ a.runs.toList, r.InWords

theorem Assignment.isForm_toJson {a : Assignment} (h : a.InWords) :
    IsForm Assignment.ofJson? a.toJson a := by
  obtain ⟨indices, hindices, hreadIndices⟩ := isForm_writeNaturals h.indices
  obtain ⟨runs, hruns, hreadRuns⟩ := isForm_list fun r hr => Run.isForm_toJson (h.runs r hr)
  refine (isForm_writeObject Assignment.jsonFields (by decide) (by decide)
    (.cons hindices (.cons hruns .nil)) rfl).bind ?_
  simp [hreadIndices, hreadRuns]

theorem Assignment.inWords_of_ofJson? {j : Json} {a : Assignment}
    (h : Assignment.ofJson? j = some a) : a.InWords := by
  simp only [Assignment.ofJson?, Option.bind_eq_bind, Option.bind_eq_some_iff] at h
  obtain ⟨values, -, h⟩ := h
  split at h
  · simp only [Option.bind_eq_some_iff] at h
    obtain ⟨indices, hindices, runs, hruns, h⟩ := h
    cases h
    refine ⟨fun index hindex => ?_, fun r hr => ?_⟩
    · obtain ⟨j, hj⟩ := of_mem_of_list? hindices hindex
      exact word?_le hj
    · obtain ⟨j, hj⟩ := of_mem_of_list? hruns hr
      exact Run.inWords_of_ofJson? hj
  · cases h

/-! ## Reading back -/

/-- What is written of `x` is read as `x` again exactly if `x` is in the range of what is read. -/
theorem Json.bind_parse?_eq_some_iff {α : Type} {read : Json → Option α} {write : α → String}
    {P : α → Prop} (hwrite : ∀ {x}, P x → IsForm read (write x) x)
    (hread : ∀ {j x}, read j = some x → P x) {x : α} :
    (parse? (write x)).bind read = some x ↔ P x := by
  refine ⟨fun h => ?_, fun h => (hwrite h).bind_parse?⟩
  obtain ⟨j, -, hj⟩ := Option.bind_eq_some_iff.1 h
  exact hread hj

theorem Digest.ofJson?_toJson (d : Digest) : (parse? d.toJson).bind Digest.ofJson? = some d :=
  (Digest.isForm_toJson d).bind_parse?

theorem Transaction.ofJson?_toJson (tx : Transaction) :
    (parse? tx.toJson).bind Transaction.ofJson? = some tx :=
  (Transaction.isForm_toJson tx).bind_parse?

theorem Limits.ofJson?_toJson_iff {l : Limits} :
    (parse? l.toJson).bind Limits.ofJson? = some l ↔ l.InWords :=
  bind_parse?_eq_some_iff Limits.isForm_toJson Limits.inWords_of_ofJson?

theorem Config.ofJson?_toJson_iff {c : Config} :
    (parse? c.toJson).bind Config.ofJson? = some c ↔ c.InWords :=
  bind_parse?_eq_some_iff Config.isForm_toJson Config.inWords_of_ofJson?

theorem Run.ofJson?_toJson_iff {r : Run} :
    (parse? r.toJson).bind Run.ofJson? = some r ↔ r.InWords :=
  bind_parse?_eq_some_iff Run.isForm_toJson Run.inWords_of_ofJson?

theorem Assignment.ofJson?_toJson_iff {a : Assignment} :
    (parse? a.toJson).bind Assignment.ofJson? = some a ↔ a.InWords :=
  bind_parse?_eq_some_iff Assignment.isForm_toJson Assignment.inWords_of_ofJson?

/-- The configuration that an environment gives can be sent. -/
theorem Config.inWords_ofEnvironment (env : Environment) : (ofEnvironment env).InWords := by
  have hbatch : IsLimit env batchVariable Text.maxWord 1024 (ofEnvironment env).maxBatch :=
    (isLimit_iff le_rfl).2 rfl
  have hgroup : IsLimit env groupVariable Text.maxWord 16 (ofEnvironment env).maxGroup :=
    (isLimit_iff le_rfl).2 rfl
  have hdepth : IsLimit env depthVariable depthCeiling 16 (ofEnvironment env).limits.maxDepth :=
    (isLimit_iff (by decide)).2 rfl
  have hceiling := (hdepth.mem_range (by decide) (by decide)).2
  exact ⟨(hbatch.mem_range (by decide) (by decide)).2, (hgroup.mem_range (by decide) (by decide)).2,
    hceiling.trans (by decide), (by decide : 65536 ≤ Text.maxWord)⟩

/-- What is given for a batch whose positions are within 64 bits can be sent. -/
theorem Batch.inWords_of_segment {limits : Limits} {maxGroup : Nat} {batch : Batch}
    {a : Assignment} (h : batch.segment limits maxGroup = .ok a)
    (hlength : batch.length ≤ Text.maxWord) : a.InWords := by
  obtain ⟨records, hdec⟩ := decodes_of_segment h
  obtain ⟨-, -, rfl⟩ := (segment_of_decodes hdec).1 h
  have hne : ∀ part ∈ maximalRuns records, part ≠ [] := fun _ hpart =>
    ne_nil_of_mem_maximalRuns hpart
  have hruns : ∀ r ∈ runsFrom 0 0 (maximalRuns records), r.InWords := by
    intro r hr
    obtain ⟨hlt, hle⟩ := bounds_of_mem_runsFrom hne hr
    have hindex := index_le_start_of_mem_runsFrom hne le_rfl hr
    rw [flatten_maximalRuns, ← hdec.length_eq] at hle
    exact ⟨by omega, by omega, by omega⟩
  constructor
  · rw [Assignment.toList_indices_ofRuns]
    intro index hindex
    obtain ⟨r, hr, hmem⟩ := List.mem_flatMap.1 hindex
    rw [List.eq_of_mem_replicate hmem]
    exact (hruns r hr).index
  · rwa [Assignment.toList_runs_ofRuns]

end AtomicGroups
