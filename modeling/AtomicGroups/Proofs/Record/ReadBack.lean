import Mathlib
import AtomicGroups.Proofs.Record.Decoding
import AtomicGroups.Proofs.Wire.Shortest
import AtomicGroups.Proofs.Wire.Spans

/-!
# Canonical forms and the readers

What is written in canonical form is read back, whatever bytes follow (`Reader.Gives`), and nothing
shorter is read as the same.  The forms are described by the grammar, so both come down to what each
reader accepts: `gives_mapHeader_iff`, `gives_header_array_iff`, `gives_key_iff`, `gives_value_iff`.
The fields that the three builders give are all different (`Field.builders_injective`).
-/

namespace AtomicGroups.Wire

/-! ## What a reading step gives -/

namespace Reader

variable {α : Type}

/-- Whether a step, wherever it starts with the bytes `b` and then `rest` in front of it, passes
exactly the bytes `b` and gives `a`. -/
def Gives (step : Reader α) (b rest : Bytes) (a : α) : Prop :=
  ∀ c : Cursor, c.rest = b ++ rest → step c = .ok a (c.advance b.length)

theorem Reads.gives_iff {step : Reader α} {G : Bytes → Bytes → α → Prop} (h : Reads step G)
    {b rest : Bytes} {a : α} : step.Gives b rest a ↔ G b rest a := by
  constructor
  · intro hstep
    have hc : (Cursor.start (b ++ rest)).rest = b ++ rest := rfl
    have hrest := rest_advance_of_append hc
    obtain ⟨b', hb', -, hG⟩ := (h _ _ _).1 (hstep _ hc)
    rw [hrest] at hb' hG
    rwa [List.append_cancel_right (hc.symm.trans hb')]
  · intro hG c hc
    exact (h c).run hc hG

end Reader

variable {limits : Limits} {level n : Nat} {b rest : Bytes} {s : String}

theorem gives_mapHeader_iff : (Reader.mapHeader limits).Gives b rest n ↔
    IsHeader .map b n ∧ 0 < limits.maxDepth ∧ n ≤ limits.maxEntries ∧ n * 2 ≤ rest.length := by
  rw [(Reader.reads_mapHeader limits).gives_iff, isHeader_iff_ofByte fun _ => Format.noConfusion]

/-- The items of an array are announced by a header with the type byte of an array. -/
theorem gives_header_array_iff {tag : UInt8} {k : Count} {count : Bytes}
    (ht : Format.ofByte tag = .array k) :
    (Reader.header limits level).Gives (tag :: count) rest n ↔
      k.Spells count n ∧ level < limits.maxDepth ∧ n ≤ limits.maxEntries ∧ n ≤ rest.length := by
  rw [(Reader.reads_header limits level).gives_iff]
  constructor
  · rintro ⟨_, _, heq, ha, hroom⟩
    cases heq
    rw [ht] at ha
    obtain ⟨_, hk, hmax, hdepth, rfl⟩ := ha
    exact ⟨hk, Nat.lt_of_sub_pos hdepth, hmax, hroom⟩
  · rintro ⟨hk, hdepth, hmax, hroom⟩
    refine ⟨tag, count, rfl, ?_, hroom⟩
    rw [ht]
    exact ⟨n, hk, hmax, Nat.sub_pos_of_lt hdepth, rfl⟩

theorem gives_key_iff : Reader.key.Gives b rest s ↔ IsKey b s :=
  Reader.reads_key.gives_iff

theorem gives_value_iff : (Reader.value limits level).Gives b rest b ↔
    IsValue limits.maxEntries (limits.maxDepth - level) b :=
  (Reader.reads_value limits level).gives_iff.trans (and_iff_right rfl)

/-! ## Reading canonical forms -/

/-- The header of the outermost map is read back if the limits allow that many entries and there is
room for them. -/
theorem gives_canonical_mapHeader_iff (hn : n < 2 ^ 32) :
    (Reader.mapHeader limits).Gives (Canonical.mapHeader n) rest n ↔
      0 < limits.maxDepth ∧ n ≤ limits.maxEntries ∧ n * 2 ≤ rest.length := by
  rw [gives_mapHeader_iff]
  exact and_iff_right ((isShortest_mapHeader_iff hn).2 rfl).1

theorem gives_canonical_arrayHeader_iff (hn : n < 2 ^ 32) :
    (Reader.header limits level).Gives (Canonical.arrayHeader n) rest n ↔
      level < limits.maxDepth ∧ n ≤ limits.maxEntries ∧ n ≤ rest.length := by
  obtain ⟨tag, k, count, hheader, ht, hk⟩ := Canonical.arrayHeader_spells n
  rw [Nat.mod_eq_of_lt hn] at hk
  rw [hheader, gives_header_array_iff ht]
  exact and_iff_right hk

/-- A canonical field is a value inside whatever containers. -/
theorem gives_value_builders {payload : Bytes} (hs : (Bytes.ofString s).length < 2 ^ 32)
    (hpayload : payload.length < 2 ^ 32) (v : UInt64) :
    ∀ f ∈ [Field.string s, Field.binary payload, Field.unsigned v.toNat],
      (Reader.value limits level).Gives f.encoded rest f.encoded := by
  simp only [List.forall_mem_cons, List.not_mem_nil, gives_value_iff]
  exact ⟨(isKey_string hs).isValue, isValue_binary hpayload, isValue_unsigned _, fun _ => False.elim⟩

/-! ## What is read as the same -/

/-- Whether there are limits and following bytes with which `b` is read as the header of a map of
`n` entries. -/
def ReadAsMap (n : Nat) (b : Bytes) : Prop :=
  ∃ limits rest, (Reader.mapHeader limits).Gives b rest n

/-- Whether there are a place, limits and following bytes with which `b` is read as the header of an
array of `n` items. -/
def ReadAsArray (n : Nat) (b : Bytes) : Prop :=
  ∃ tag k count, b = tag :: count ∧ Format.ofByte tag = .array k ∧
    ∃ limits level rest, (Reader.header limits level).Gives b rest n

def ReadAsKey (s : String) (b : Bytes) : Prop := ∃ rest, Reader.key.Gives b rest s

/-- Whether the payload `payload` is found in the value `b`. -/
def ReadAsBinary (payload b : Bytes) : Prop := (Field.mk b).payload? = some payload

theorem readAsMap_iff : ReadAsMap n b ↔ IsHeader .map b n := by
  constructor
  · rintro ⟨limits, rest, h⟩
    exact (gives_mapHeader_iff.1 h).1
  · intro h
    refine ⟨⟨1, n⟩, List.replicate (n * 2) 0, gives_mapHeader_iff.2 ⟨h, Nat.one_pos, le_rfl, ?_⟩⟩
    rw [List.length_replicate]

theorem readAsArray_iff : ReadAsArray n b ↔ IsHeader .array b n := by
  rw [isHeader_iff_ofByte fun _ => Format.noConfusion]
  constructor
  · rintro ⟨tag, k, count, rfl, ht, limits, level, rest, h⟩
    exact ⟨tag, k, count, rfl, ht, ((gives_header_array_iff ht).1 h).1⟩
  · rintro ⟨tag, k, count, rfl, ht, hk⟩
    refine ⟨tag, k, count, rfl, ht, ⟨1, n⟩, 0, List.replicate n 0,
      (gives_header_array_iff ht).2 ⟨hk, Nat.one_pos, le_rfl, ?_⟩⟩
    rw [List.length_replicate]

theorem readAsKey_iff : ReadAsKey s b ↔ IsKey b s := by
  unfold ReadAsKey
  simp only [gives_key_iff, exists_const]

theorem readAsBinary_iff {payload : Bytes} : ReadAsBinary payload b ↔ IsBinary payload b :=
  Field.payload?_eq_some_iff

/-! ## The builders of fields -/

/-- The number that a canonical number gives. -/
def Canonical.number (b : Bytes) : Nat :=
  if b.length = 1 then Bytes.toNat b else Bytes.toNat b.tail

theorem Canonical.number_unsigned (h : n < 2 ^ 64) : number (unsigned n) = n := by
  have hwide (tag : UInt8) {width : Nat} (hwidth : 0 < width) (hn : n < 256 ^ width) :
      number (tag :: Bytes.ofNat width n) = n := by
    unfold number
    rw [List.length_cons, Bytes.length_ofNat, if_neg (by omega), List.tail_cons,
      Bytes.toNat_ofNat_of_lt hn]
  unfold unsigned
  split_ifs with h₁ h₂ h₃ h₄
  · change Bytes.toNat (Bytes.ofNat 1 n) = n
    exact Bytes.toNat_ofNat_of_lt (by omega)
  · exact hwide 0xcc (by decide) h₂
  · exact hwide 0xcd (by decide) h₃
  · exact hwide 0xce (by decide) h₄
  · exact hwide 0xcf (by decide) h

/-- A content is told from the header in front of it if the longer contents have no shorter
headers. -/
theorem content_injective {header : Nat → Bytes} (hmono : Monotone fun n => (header n).length)
    {content content' : Bytes}
    (h : header content.length ++ content = header content'.length ++ content') :
    content = content' := by
  have hlength : content.length = content'.length := by
    have hstrict : StrictMono fun n => (header n).length + n := hmono.add_strictMono strictMono_id
    have hlen := congrArg List.length h
    rw [List.length_append, List.length_append] at hlen
    exact hstrict.injective hlen
  rw [hlength] at h
  exact List.append_cancel_left h

theorem Canonical.monotone_length_blobHeader (wide : UInt8) :
    Monotone fun n => (blobHeader wide n).length := by
  intro m n hmn
  dsimp only [blobHeader]
  split_ifs <;> simp <;> omega

theorem Canonical.monotone_length_stringHeader :
    Monotone fun n => (stringHeader n).length := by
  intro m n hmn
  dsimp only [stringHeader, blobHeader]
  split_ifs <;> simp <;> omega

end AtomicGroups.Wire

namespace AtomicGroups.Field

open Wire

theorem unsigned_injective : Function.Injective fun v : UInt64 => unsigned v.toNat := by
  intro v w h
  have hnumber := congrArg (fun f => Canonical.number f.encoded) h
  change Canonical.number (Canonical.unsigned _) = Canonical.number (Canonical.unsigned _) at hnumber
  rw [Canonical.number_unsigned v.toNat_lt, Canonical.number_unsigned w.toNat_lt] at hnumber
  exact UInt64.toNat_inj.1 hnumber

theorem string_injective : Function.Injective string := fun _ _ h =>
  Bytes.ofString_injective
    (content_injective Canonical.monotone_length_stringHeader (congrArg encoded h))

theorem binary_injective : Function.Injective binary := fun _ _ h =>
  content_injective (Canonical.monotone_length_blobHeader 0xc4) (congrArg encoded h)

/-- What the first byte of a field announces. -/
def format? (f : Field) : Option Format := f.encoded.head?.map Format.ofByte

theorem format?_of_header {tag : UInt8} {header count content : Bytes} {format : Format}
    (hheader : header = tag :: count) (ht : Format.ofByte tag = format) :
    format? ⟨header ++ content⟩ = some format := by
  subst hheader ht
  rfl

theorem exists_format?_unsigned (n : Nat) : ∃ size, (unsigned n).format? = some (.fixed size) := by
  obtain ⟨tag, payload, hencoded, ht⟩ := Canonical.exists_unsigned_eq n
  refine ⟨payload.length, ?_⟩
  unfold unsigned
  rw [hencoded, ← List.append_nil (tag :: payload)]
  exact format?_of_header rfl ht

theorem exists_format?_string (s : String) : ∃ k, (string s).format? = some (.string k) := by
  obtain ⟨tag, k, count, hheader, ht, -⟩ := Canonical.stringHeader_spells (Bytes.ofString s).length
  exact ⟨k, format?_of_header hheader ht⟩

theorem exists_format?_binary (payload : Bytes) :
    ∃ k, (binary payload).format? = some (.binary k) := by
  obtain ⟨tag, k, count, hheader, ht, -⟩ := Canonical.binaryHeader_spells payload.length
  exact ⟨k, format?_of_header hheader ht⟩

/-- Numbers, texts and binaries are all encoded differently. -/
theorem builders_injective : Function.Injective
    (Sum.elim (fun v : UInt64 => unsigned v.toNat) (Sum.elim string binary)) := by
  refine unsigned_injective.sumElim (string_injective.sumElim binary_injective ?_) ?_
  · intro s payload h
    obtain ⟨k, hk⟩ := exists_format?_string s
    obtain ⟨k', hk'⟩ := exists_format?_binary payload
    rw [h, hk'] at hk
    cases hk
  · intro v content h
    obtain ⟨size, hsize⟩ := exists_format?_unsigned v.toNat
    rw [h] at hsize
    cases content with
    | inl s =>
      obtain ⟨k, hk⟩ := exists_format?_string s
      cases hsize.symm.trans hk
    | inr payload =>
      obtain ⟨k, hk⟩ := exists_format?_binary payload
      cases hsize.symm.trans hk

end AtomicGroups.Field

namespace AtomicGroups.Wire

/-! ## Readers and canonical forms -/

/-- The headers and the fields that are written are read back: of a container if the limits allow
it and there is room for its items, and otherwise under whatever limits.  No other header, key or
binary that is read as the same is as short as the one that is written, and the fields of numbers,
texts and binaries are all different. -/
theorem canonical_forms_readBack (limits : Limits) (level n : Nat) (s : String) (payload : Bytes)
    (v : UInt64) (rest : Bytes) (hn : n < 2 ^ 32) (hs : (Bytes.ofString s).length < 2 ^ 32)
    (hpayload : payload.length < 2 ^ 32) :
    ((Reader.mapHeader limits).Gives (Canonical.mapHeader n) rest n ↔
      0 < limits.maxDepth ∧ n ≤ limits.maxEntries ∧ n * 2 ≤ rest.length) ∧
    ((Reader.header limits level).Gives (Canonical.arrayHeader n) rest n ↔
      level < limits.maxDepth ∧ n ≤ limits.maxEntries ∧ n ≤ rest.length) ∧
    Reader.key.Gives (Canonical.string s) rest s ∧
    (∀ f ∈ [Field.string s, Field.binary payload, Field.unsigned v.toNat],
      (Reader.value limits level).Gives f.encoded rest f.encoded) ∧
    (∀ b, (IsShortest (ReadAsMap n) b ↔ b = Canonical.mapHeader n) ∧
      (IsShortest (ReadAsArray n) b ↔ b = Canonical.arrayHeader n) ∧
      (IsShortest (ReadAsKey s) b ↔ b = Canonical.string s) ∧
      (IsShortest (ReadAsBinary payload) b ↔ b = Canonical.binary payload)) ∧
    Function.Injective (Sum.elim (fun v : UInt64 => Field.unsigned v.toNat)
      (Sum.elim Field.string Field.binary)) := by
  refine ⟨gives_canonical_mapHeader_iff hn, gives_canonical_arrayHeader_iff hn,
    gives_key_iff.2 (isKey_string hs), gives_value_builders hs hpayload v, fun b => ⟨?_, ?_, ?_, ?_⟩,
    Field.builders_injective⟩
  · rw [IsShortest.congr fun _ => readAsMap_iff, isShortest_mapHeader_iff hn]
  · rw [IsShortest.congr fun _ => readAsArray_iff, isShortest_arrayHeader_iff hn]
  · rw [IsShortest.congr fun _ => readAsKey_iff, isShortest_string_iff hs]
  · rw [IsShortest.congr fun _ => readAsBinary_iff, isShortest_binary_iff hpayload]

/-- The least counts that do not go into the header of the next shorter form. -/
theorem canonical_forms_readBack_bounds :
    let rest : Bytes := List.replicate 32 0
    let text := "aaaaaaaaaaaaaaaaaaaaaaaaaaaaaaaa"
    let payload : Bytes := List.replicate 256 0
    (Reader.mapHeader ⟨1, 16⟩).Gives [0xde, 0x00, 0x10] rest 16 ∧
      (Reader.header ⟨1, 16⟩ 0).Gives [0xdc, 0x00, 0x10] rest 16 ∧
      Reader.key.Gives (0xd9 :: 0x20 :: Bytes.ofString text) rest text ∧
      (Reader.value ⟨1, 16⟩ 0).Gives [0xcc, 0x80] rest [0xcc, 0x80] ∧
      IsShortest (ReadAsBinary payload) (0xc5 :: 0x01 :: 0x00 :: payload) := by
  intro rest text payload
  have htext : (Bytes.ofString text).length = 32 := by decide +kernel
  have hpayload : payload.length = 256 := List.length_replicate
  have hstring : Canonical.string text = 0xd9 :: 0x20 :: Bytes.ofString text := by
    change Canonical.stringHeader (Bytes.ofString text).length ++ _ = _
    rw [htext]
    rfl
  have hbinary : Canonical.binary payload = 0xc5 :: 0x01 :: 0x00 :: payload := by
    unfold Canonical.binary
    rw [hpayload]
    rfl
  obtain ⟨hmap, harray, hkey, hvalue, hshortest, -⟩ :=
    canonical_forms_readBack ⟨1, 16⟩ 0 16 text payload 0x80 rest (by decide) (by omega) (by omega)
  rw [hstring] at hkey
  exact ⟨hmap.2 (by decide), harray.2 (by decide), hkey,
    hvalue _ (.tail _ (.tail _ (.head _))), (hshortest _).2.2.2.2 hbinary.symm⟩

end AtomicGroups.Wire
