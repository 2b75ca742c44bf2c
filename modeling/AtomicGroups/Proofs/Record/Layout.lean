import Mathlib
import AtomicGroups.Proofs.Record.Decoding
import AtomicGroups.Record.Layout

/-!
# Layouts and what they are read as

The parts of a record are determined by its bytes: whatever the limits, there is one layout only
(`Layout.eq_of_bytes_eq`).  A byte string that decodes has a layout (`Layout.exists_of_decode`), and
the record is that of the keys and values laid out in it (`Layout.holds_of_decode`).
-/

namespace AtomicGroups

open Wire

variable {limits limits' : Limits} {b : Bytes} {r : Record}

/-! ## The parts of a layout -/

theorem Wire.IsHeader.unique {format : Count → Format} {header header' rest rest' : Bytes}
    {n n' : Nat} (hformat : Function.Injective format) (h : IsHeader format header n)
    (h' : IsHeader format header' n') (heq : header ++ rest = header' ++ rest') :
    header = header' ∧ rest = rest' ∧ n = n' := by
  obtain ⟨ht, hk⟩ := h
  obtain ⟨ht', hk'⟩ := h'
  injection heq with htag heq
  subst htag
  obtain rfl := hformat (ht.ofByte_eq.symm.trans ht'.ofByte_eq)
  obtain ⟨rfl, rfl, rfl⟩ := (Reader.reads_count _).unique hk hk' heq
  exact ⟨rfl, rfl, rfl⟩

namespace WrittenEntry

@[ext] theorem ext {e f : WrittenEntry} (hname : e.name = f.name) (hvalue : e.value = f.value) :
    e = f := by
  obtain ⟨name, key, value, hkey⟩ := e
  obtain ⟨name', key', value', hkey'⟩ := f
  cases hname
  cases hvalue
  obtain ⟨-, -, rfl⟩ := hkey.unique hkey' (rfl : name ++ [] = name ++ [])
  rfl

theorem bytes_ne_nil (e : WrittenEntry) : e.bytes ≠ [] :=
  List.append_ne_nil_of_left_ne_nil (List.ne_nil_of_length_pos e.isKey.length_pos) _

/-- What an entry stands for. -/
def pair (e : WrittenEntry) : String × Field := (e.key, e.value)

/-- Entries in a row are determined by their bytes. -/
theorem eq_of_flatMap_bytes_eq {m h m' h' : Nat} {es es' : List WrittenEntry}
    (hes : ∀ e ∈ es, IsValue m h e.value.encoded) (hes' : ∀ e ∈ es', IsValue m' h' e.value.encoded)
    (heq : es.flatMap bytes = es'.flatMap bytes) : es = es' := by
  induction es generalizing es' with
  | nil =>
    cases es' with
    | nil => rfl
    | cons e' es' => exact absurd (List.append_eq_nil_iff.1 heq.symm).1 e'.bytes_ne_nil
  | cons e es ih =>
    cases es' with
    | nil => exact absurd (List.append_eq_nil_iff.1 heq).1 e.bytes_ne_nil
    | cons e' es' =>
      simp only [List.flatMap_cons, bytes, List.append_assoc] at heq
      obtain ⟨hname, heq, -⟩ := e.isKey.unique e'.isKey heq
      obtain ⟨hvalue, heq⟩ :=
        (hes e List.mem_cons_self).unique (hes' e' List.mem_cons_self) heq
      rw [WrittenEntry.ext hname (congrArg Field.mk hvalue),
        ih (fun f hf => hes f (List.mem_cons_of_mem _ hf))
          (fun f hf => hes' f (List.mem_cons_of_mem _ hf)) heq]

/-- What the grammar allows as entries in a row are the bytes of written entries. -/
theorem areEntries_iff {m h : Nat} {entries : List (String × Field)} : AreEntries m h entries b ↔
    ∃ es : List WrittenEntry, es.map pair = entries ∧ es.flatMap bytes = b ∧
      ∀ e ∈ es, IsValue m h e.value.encoded := by
  induction entries generalizing b with
  | nil =>
    rw [areEntries_nil_iff]
    constructor
    · rintro rfl
      exact ⟨[], rfl, rfl, by simp⟩
    · rintro ⟨es, hes, rfl, -⟩
      rw [List.map_eq_nil_iff.1 hes]
      rfl
  | cons entry entries ih =>
    obtain ⟨key, value⟩ := entry
    rw [areEntries_cons_iff]
    constructor
    · rintro ⟨name, rest, rfl, hk, hv, hrest⟩
      obtain ⟨es, rfl, rfl, hes⟩ := ih.1 hrest
      exact ⟨⟨name, key, value, hk⟩ :: es, rfl, rfl, List.forall_mem_cons.2 ⟨hv, hes⟩⟩
    · rintro ⟨es, hes, rfl, hfit⟩
      cases es with
      | nil => cases hes
      | cons e es =>
        cases hes
        obtain ⟨hv, hfit⟩ := List.forall_mem_cons.1 hfit
        exact ⟨e.name, _, rfl, e.isKey, hv, ih.2 ⟨es, rfl, rfl, hfit⟩⟩

end WrittenEntry

namespace Layout

/-- The entries that a layout stands for. -/
def pairs (l : Layout) : List (String × Field) := l.entries.map WrittenEntry.pair

theorem mem_pairs_iff {l : Layout} {key : String} {value : Field} :
    (key, value) ∈ l.pairs ↔ ∃ e ∈ l.entries, e.key = key ∧ e.value = value := by
  unfold pairs WrittenEntry.pair
  simp only [List.mem_map, Prod.mk.injEq]

/-- The parts of a record are determined by its bytes. -/
theorem eq_of_bytes_eq {l l' : Layout} (h : l.Fits limits) (h' : l'.Fits limits')
    (heq : l.bytes = l'.bytes) : l = l' := by
  obtain ⟨header, entries, hheader⟩ := l
  obtain ⟨header', entries', hheader'⟩ := l'
  obtain ⟨rfl, hbody, -⟩ := hheader.unique (fun _ _ hk => Format.map.inj hk) hheader' heq
  obtain rfl := WrittenEntry.eq_of_flatMap_bytes_eq h h' hbody
  rfl

/-! ## Layouts and records -/

/-- What makes the entries of a layout those of a record. -/
structure Holds (l : Layout) (r : Record) : Prop where
  nodup : (l.pairs.map Prod.fst).Nodup
  digests : ∀ value, (groupKey, value) ∈ l.pairs → value.digest?.isSome
  eq : r = .ofEntries (.ofList l.pairs byteOrder)

/-- Whatever decodes has a layout. -/
theorem exists_of_decode (h : Record.decode limits b = .ok r) :
    ∃ l : Layout, l.bytes = b ∧ l.Fits limits ∧ l.Holds r := by
  obtain ⟨entries, hb, rfl⟩ := (Record.decode_eq_ok_iff limits).1 h
  obtain ⟨tag, k, count, body, rfl, ht, hk, -, -, hbody, hnodup, hdigests⟩ := isRecord_iff.1 hb
  obtain ⟨es, rfl, rfl, hfit⟩ := WrittenEntry.areEntries_iff.1 hbody
  rw [List.length_map] at hk
  exact ⟨⟨tag :: count, es, .mk (typeByte_iff.2 ⟨ht, Format.noConfusion⟩) hk⟩, rfl, hfit,
    hnodup, hdigests, rfl⟩

/-- If the bytes of a layout decode, then to the record of the entries laid out. -/
theorem holds_of_decode {l : Layout} (hfit : l.Fits limits)
    (h : Record.decode limits' l.bytes = .ok r) : l.Holds r := by
  obtain ⟨l', hbytes, hfit', hholds⟩ := exists_of_decode h
  rwa [eq_of_bytes_eq hfit hfit' hbytes.symm]

/-- The bytes of a layout decode if it is within limits and holds a record. -/
theorem Holds.decode_eq_ok {l : Layout} (h : l.Holds r) (hfit : l.Fits limits)
    (hdepth : 0 < limits.maxDepth) (hmax : l.entries.length ≤ limits.maxEntries) :
    Record.decode limits l.bytes = .ok r := by
  obtain ⟨header, es, @⟨tag, k, count, n, ht, hk⟩⟩ := l
  refine (Record.decode_eq_ok_iff limits).2 ⟨_, isRecord_iff.2 ⟨tag, k, count, _, rfl, ht.ofByte_eq,
    ?_, ?_, hdepth, WrittenEntry.areEntries_iff.2 ⟨es, rfl, rfl, hfit⟩, h.nodup, h.digests⟩, h.eq⟩
  · rwa [List.length_map]
  · rwa [List.length_map]

end Layout

end AtomicGroups
