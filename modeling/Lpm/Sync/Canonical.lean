/-
The text a config's digest is taken of (`canonical` of `peersync.rs`).

An object is written with its keys in order, each quoted as `{:?}` quotes it, and every
entry and item is closed by a mark of its own. Two values have the same text exactly when
they are equal up to the order of the entries: a value's first character says what kind
it is (`canonical_head`), and each kind can be read back from the front of a longer text
(`canonical_reads`), an object with its entries in the order of their keys.

Two numbers are equal here when they are the same number of the same kind. Rust's `==`
also takes the two zeros of `f64` for equal, which are printed differently.
-/
import Lpm.Lib.SortedList
import Lpm.Sync.Json
import Mathlib

set_option autoImplicit false

open RustText Codes Escapes StableSort Utf8

namespace Lpm.Sync

open List

section
variable (float_text : Finite → Str) (printable : Char → Bool)

/-- One entry of an object: its key, a colon, the text of its value and a semicolon. -/
def entry_text (entry : Str × Str) : Str :=
  (debug_escaping printable).quoted entry.1 ++ [':'] ++ entry.2 ++ [';']

mutual

/-- `canonical`. -/
def canonical : Json → Str
  | .Object entries =>
    '\x7b' :: (sortBy Prod.fst (canonical_entries entries)).flatMap (entry_text printable)
      ++ ['\x7d']
  | .Array items => '[' :: canonical_items items ++ [']']
  | .Null => ['n', 'u', 'l', 'l']
  | .Bool true => ['t', 'r', 'u', 'e']
  | .Bool false => ['f', 'a', 'l', 's', 'e']
  | .Number n => n.to_string float_text
  | .String s => json_escaping.quoted s

/-- The items of an array, a comma behind each. -/
def canonical_items : List Json → Str
  | [] => []
  | x :: items => canonical x ++ ',' :: canonical_items items

/-- The keys of an object with the texts of their values. -/
def canonical_entries : List (Str × Json) → List (Str × Str)
  | [] => []
  | (k, v) :: entries => (k, canonical v) :: canonical_entries entries

end

/-- `hash_canonical`. -/
def hash_canonical (sha256_hex : List UInt8 → Str) (j : Json) : Str :=
  sha256_hex (as_bytes (canonical float_text printable j))

end

/-! ## Equal up to the order of entries -/

/-- Equal up to the order of the entries of the objects in them, where `R` says which
numbers are equal. -/
inductive Same (R : Number → Number → Prop) : Json → Json → Prop where
  | null : Same R .Null .Null
  | bool (b : Bool) : Same R (.Bool b) (.Bool b)
  | number {n m : Number} (h : R n m) : Same R (.Number n) (.Number m)
  | string (s : Str) : Same R (.String s) (.String s)
  | array_nil : Same R (.Array []) (.Array [])
  | array_cons {x y : Json} {xs ys : List Json} (hitem : Same R x y)
    (hrest : Same R (.Array xs) (.Array ys)) : Same R (.Array (x :: xs)) (.Array (y :: ys))
  | object_nil : Same R (.Object []) (.Object [])
  | object_cons {k : Str} {x y : Json} {es fs : List (Str × Json)} (hvalue : Same R x y)
    (hrest : Same R (.Object es) (.Object fs)) :
    Same R (.Object ((k, x) :: es)) (.Object ((k, y) :: fs))
  | reorder {es fs : List (Str × Json)} (h : es.Perm fs) : Same R (.Object es) (.Object fs)
  | trans {u v w : Json} (huv : Same R u v) (hvw : Same R v w) : Same R u w

/-- Every object in the value has each of its keys once. -/
inductive Distinct : Json → Prop where
  | null : Distinct .Null
  | bool (b : Bool) : Distinct (.Bool b)
  | number (n : Number) : Distinct (.Number n)
  | string (s : Str) : Distinct (.String s)
  | array {xs : List Json} (h : ∀ x ∈ xs, Distinct x) : Distinct (.Array xs)
  | object {es : List (Str × Json)} (hkeys : (es.map Prod.fst).Nodup)
    (h : ∀ e ∈ es, Distinct e.2) : Distinct (.Object es)

theorem distinct_array {xs : List Json} : Distinct (.Array xs) ↔ ∀ x ∈ xs, Distinct x := by
  constructor
  · intro h
    cases h with
    | array h => exact h
  · exact .array

theorem distinct_object {es : List (Str × Json)} :
    Distinct (.Object es) ↔ (es.map Prod.fst).Nodup ∧ ∀ e ∈ es, Distinct e.2 := by
  constructor
  · intro h
    cases h with
    | object hkeys h => exact ⟨hkeys, h⟩
  · rintro ⟨hkeys, h⟩
    exact .object hkeys h

/-- A JSON value, which holds a map where it holds an object. -/
structure Value where
  json : Json
  distinct : Distinct json

/-- What holds of a value when it holds of what is in it, holds of every value. -/
@[elab_as_elim]
theorem Json.induct {motive : Json → Prop} (null : motive .Null) (bool : ∀ b, motive (.Bool b))
    (number : ∀ n, motive (.Number n)) (string : ∀ s, motive (.String s))
    (array : ∀ xs, (∀ x ∈ xs, motive x) → motive (.Array xs))
    (object : ∀ es, (∀ e ∈ es, motive e.2) → motive (.Object es)) (v : Json) : motive v :=
  match v with
  | .Null => null
  | .Bool b => bool b
  | .Number n => number n
  | .String s => string s
  | .Array xs => array xs fun x hx =>
      have := sizeOf_lt_of_mem hx
      Json.induct null bool number string array object x
  | .Object es => object es fun e he =>
      have := sizeOf_lt_of_mem he
      Json.induct null bool number string array object e.2
termination_by v
decreasing_by
  · simp only [Json.Array.sizeOf_spec]
    omega
  · obtain ⟨k, v⟩ := e
    simp only [Json.Object.sizeOf_spec, Prod.mk.sizeOf_spec] at *
    omega

theorem Same.array {R : Number → Number → Prop} {xs ys : List Json}
    (h : List.Forall₂ (Same R) xs ys) : Same R (.Array xs) (.Array ys) := by
  induction h with
  | nil => exact .array_nil
  | cons hitem _ ih => exact .array_cons hitem ih

theorem Same.object {R : Number → Number → Prop} {es fs : List (Str × Json)}
    (h : List.Forall₂ (fun e f => e.1 = f.1 ∧ Same R e.2 f.2) es fs) :
    Same R (.Object es) (.Object fs) := by
  induction h with
  | nil => exact .object_nil
  | @cons e f _ _ hentry _ ih =>
    obtain ⟨k, x⟩ := e
    obtain ⟨l, y⟩ := f
    obtain ⟨rfl, hvalue⟩ : k = l ∧ Same R x y := hentry
    exact .object_cons hvalue ih

/-! ## Reading a text back -/

section
variable {float_text : Finite → Str} {printable : Char → Bool}

theorem canonical_items_eq (xs : List Json) : canonical_items float_text printable xs
    = xs.flatMap fun x => canonical float_text printable x ++ [','] := by
  induction xs with
  | nil => simp [canonical_items]
  | cons x xs ih => simp [canonical_items, ih]

variable (es : List (Str × Json))

theorem canonical_entries_eq : canonical_entries float_text printable es
    = es.map fun e => (e.1, canonical float_text printable e.2) := by
  induction es with
  | nil => simp [canonical_entries]
  | cons e es ih => simp [canonical_entries, ih]

/-- The text of an object, entry by entry in the order of the keys. -/
theorem canonical_object : canonical float_text printable (.Object es)
    = '\x7b' :: ((sortBy Prod.fst es).flatMap fun e =>
        ((debug_escaping printable).quoted e.1 ++ [':'])
          ++ (canonical float_text printable e.2 ++ [';'])) ++ ['\x7d'] := by
  have hsorted : sortBy Prod.fst (es.map fun e => (e.1, canonical float_text printable e.2))
      = (sortBy Prod.fst es).map fun e => (e.1, canonical float_text printable e.2) :=
    sortBy_map (fun _ => rfl) es
  rw [canonical, canonical_entries_eq, hsorted, flatMap_map]
  simp [entry_text]

/-- The kind of a value. -/
def Json.kind : Json → ℕ
  | .Null => 0
  | .Bool _ => 1
  | .Number _ => 2
  | .String _ => 3
  | .Array _ => 4
  | .Object _ => 5

theorem Json.kind_le (v : Json) : v.kind ≤ 5 := by
  cases v <;> simp [Json.kind]

/-- The kind of the value whose text starts with a character. None starts with the mark that
closes an array. -/
def opens (c : Char) : ℕ :=
  if c = 'n' then 0
  else if c = 't' ∨ c = 'f' then 1
  else if c = '"' then 3
  else if c = '[' then 4
  else if c = '\x7b' then 5
  else if c = ']' then 6
  else 2

theorem opens_numeral {c : Char} (h : is_numeral c) : opens c = 2 := by
  have hne (d : Char) (hd : ¬ is_numeral d) : c ≠ d := by
    rintro rfl
    exact hd h
  unfold opens
  rw [if_neg (hne 'n' (by unfold is_numeral; decide)),
    if_neg (not_or.mpr ⟨hne 't' (by unfold is_numeral; decide),
      hne 'f' (by unfold is_numeral; decide)⟩),
    if_neg (hne '"' (by unfold is_numeral; decide)),
    if_neg (hne '[' (by unfold is_numeral; decide)),
    if_neg (hne '\x7b' (by unfold is_numeral; decide)),
    if_neg (hne ']' (by unfold is_numeral; decide))]

/-- The first character of a text says what kind its value is. -/
theorem canonical_head (hfloat : FloatText float_text) (v : Json) :
    ∃ c cs, canonical float_text printable v = c :: cs ∧ opens c = v.kind := by
  cases v with
  | Null => exact ⟨_, _, rfl, rfl⟩
  | Bool b =>
    cases b with
    | true => exact ⟨_, _, rfl, rfl⟩
    | false => exact ⟨_, _, rfl, rfl⟩
  | Number n =>
    obtain ⟨c, cs, hcs⟩ := exists_cons_of_ne_nil (Number.to_string_ne_nil hfloat n)
    refine ⟨c, cs, by rw [canonical, hcs], opens_numeral ?_⟩
    exact Number.numeral_to_string hfloat n c (by rw [hcs]; exact mem_cons_self)
  | String s => exact ⟨_, _, by rw [canonical, Escaping.quoted, cons_append], rfl⟩
  | Array xs | Object es => exact ⟨_, _, by rw [canonical, cons_append], rfl⟩

/-- Values whose texts start alike are of one kind. -/
theorem kind_eq (hfloat : FloatText float_text) {v w : Json} {s t : Str}
    (h : canonical float_text printable v ++ s = canonical float_text printable w ++ t) :
    v.kind = w.kind := by
  obtain ⟨c, cs, hc, hv⟩ := @canonical_head _ printable hfloat v
  obtain ⟨d, ds, hd, hw⟩ := @canonical_head _ printable hfloat w
  rw [hc, hd, cons_append, cons_append] at h
  rw [← hv, ← hw, (List.cons.inj h).1]

/-- A mark that stands in no number closes a value. -/
theorem mark_outside {mark : Char} (h : ¬ is_numeral mark) (s : Str) :
    Outside is_numeral (mark :: s) := by
  intro c hc
  rw [head?_cons, Option.mem_some] at hc
  exact hc ▸ h

/-- The items of an array, read back one by one. -/
theorem items_read (hfloat : FloatText float_text) {xs : List Json}
    (h : ∀ x ∈ xs, ReadsAs (Same Eq) (canonical float_text printable) (Outside is_numeral) x) :
    ReadsAs (List.Forall₂ (Same Eq))
      (fun xs => xs.flatMap (fun x => canonical float_text printable x ++ [',']) ++ [']'])
      Anything xs := by
  apply ReadsAs.list
  · intro x hx
    exact (h x hx).followed (mark_outside (by unfold is_numeral; decide))
  · intro x
    obtain ⟨c, cs, hc, hkind⟩ := @canonical_head _ printable hfloat x
    refine ⟨c, cs ++ [','], by rw [hc, cons_append], ?_⟩
    rintro rfl
    have hfive := x.kind_le
    have hsix : opens ']' = 6 := by decide
    omega

/-- The entries of an object, read back one by one. -/
theorem entries_read {es : List (Str × Json)}
    (h : ∀ e ∈ es, ReadsAs (Same Eq) (canonical float_text printable) (Outside is_numeral) e.2) :
    ReadsAs (List.Forall₂ fun e f => e.1 = f.1 ∧ Same Eq e.2 f.2)
      (fun es => (es.flatMap fun e => ((debug_escaping printable).quoted e.1 ++ [':'])
        ++ (canonical float_text printable e.2 ++ [';'])) ++ ['\x7d'])
      Anything es := by
  apply ReadsAs.list
  · intro e he
    have hkey : ReadsAs Eq (fun k => (debug_escaping printable).quoted k ++ [':']) Anything e.1 :=
      (Escaping.quoted_reads e.1).followed fun _ => trivial
    exact hkey.pair ((h e he).followed (mark_outside (by unfold is_numeral; decide)))
  · intro e
    exact ⟨_, _, by rw [Escaping.quoted]; rfl, by decide⟩

/-- The value of a text is read back up to the order of entries, where no more of a
number follows. -/
theorem canonical_reads (hfloat : FloatText float_text) (v : Json) :
    ReadsAs (Same Eq) (canonical float_text printable) (Outside is_numeral) v := by
  induction v using Json.induct with
  | null =>
    intro w s t hs ht heq
    have hkind := kind_eq hfloat heq
    cases w with
    | Null => exact ⟨.null, by simpa [canonical] using heq⟩
    | _ => exact absurd hkind (by simp [Json.kind])
  | bool b =>
    intro w s t hs ht heq
    have hkind := kind_eq hfloat heq
    cases w with
    | Bool c =>
      cases b <;> cases c <;> simp [canonical] at heq
      · exact ⟨.bool false, heq⟩
      · exact ⟨.bool true, heq⟩
    | _ => exact absurd hkind (by simp [Json.kind])
  | number n =>
    intro w s t hs ht heq
    have hkind := kind_eq hfloat heq
    cases w with
    | Number m =>
      rw [canonical, canonical] at heq
      obtain ⟨rfl, hrest⟩ := Number.reads hfloat n m s t hs ht heq
      exact ⟨.number rfl, hrest⟩
    | _ => exact absurd hkind (by simp [Json.kind])
  | string text =>
    intro w s t hs ht heq
    have hkind := kind_eq hfloat heq
    cases w with
    | String text' =>
      rw [canonical, canonical] at heq
      obtain ⟨rfl, hrest⟩ := Escaping.quoted_reads text text' s t trivial trivial heq
      exact ⟨.string text, hrest⟩
    | _ => exact absurd hkind (by simp [Json.kind])
  | array xs ih =>
    intro w s t hs ht heq
    have hkind := kind_eq hfloat heq
    cases w with
    | Array ys =>
      rw [canonical, canonical, canonical_items_eq, canonical_items_eq] at heq
      obtain ⟨hsame, hrest⟩ := items_read hfloat ih ys s t trivial trivial (List.cons.inj heq).2
      exact ⟨.array hsame, hrest⟩
    | _ => exact absurd hkind (by simp [Json.kind])
  | object es ih =>
    intro w s t hs ht heq
    have hkind := kind_eq hfloat heq
    cases w with
    | Object fs =>
      -- the entries are read in the order of their keys, the order they were written in is lost
      rw [canonical_object, canonical_object] at heq
      obtain ⟨hsame, hrest⟩ := entries_read
        (fun e he => ih e ((sortBy_perm Prod.fst es).mem_iff.mp he)) (sortBy Prod.fst fs) s t
        trivial trivial (List.cons.inj heq).2
      refine ⟨?_, hrest⟩
      exact ((Same.reorder (sortBy_perm Prod.fst es).symm).trans (.object hsame)).trans
        (.reorder (sortBy_perm Prod.fst fs))
    | _ => exact absurd hkind (by simp [Json.kind])

/-! ## Writing equal values -/

theorem keys_perm {es fs : List (Str × Json)}
    (h : (canonical_entries float_text printable es).Perm
      (canonical_entries float_text printable fs)) :
    (es.map Prod.fst).Perm (fs.map Prod.fst) := by
  have hmap := h.map Prod.fst
  rw [canonical_entries_eq, canonical_entries_eq, List.map_map, List.map_map] at hmap
  exact hmap

/-- The text of an object does not depend on the order of its entries. -/
theorem canonical_of_perm {es fs : List (Str × Json)} (hkeys : (es.map Prod.fst).Nodup)
    (h : (canonical_entries float_text printable es).Perm
      (canonical_entries float_text printable fs)) :
    canonical float_text printable (.Object es) = canonical float_text printable (.Object fs) := by
  have hnodup : ((canonical_entries float_text printable es).map Prod.fst).Nodup := by
    rw [canonical_entries_eq, List.map_map]
    exact hkeys
  rw [canonical, canonical, sortBy_congr hnodup h]

/-- The entries of an object, and none of anything else. -/
def Json.entries : Json → List (Str × Json)
  | .Object es => es
  | _ => []

/-- Equal values have each key once together, and their texts are the same. -/
theorem Same.canonical_eq {v w : Json} (h : Same Eq v w) (hv : Distinct v) :
    Distinct w ∧ canonical float_text printable v = canonical float_text printable w ∧
      (canonical_entries float_text printable v.entries).Perm
        (canonical_entries float_text printable w.entries) := by
  induction h with
  | null => exact ⟨hv, rfl, .refl _⟩
  | bool b => exact ⟨hv, rfl, .refl _⟩
  | number heq =>
    subst heq
    exact ⟨hv, rfl, .refl _⟩
  | string s => exact ⟨hv, rfl, .refl _⟩
  | array_nil => exact ⟨hv, rfl, .refl _⟩
  | @array_cons x y xs ys _ _ ihitem ihrest =>
    rw [distinct_array] at hv
    obtain ⟨hdist, heq, -⟩ := ihitem (hv x mem_cons_self)
    obtain ⟨hdists, heqs, -⟩ :=
      ihrest (distinct_array.mpr fun z hz => hv z (mem_cons_of_mem _ hz))
    rw [canonical, canonical] at heqs
    -- an array ends in its own mark, so the items have one text
    have hitems := append_cancel_right (List.cons.inj heqs).2
    refine ⟨distinct_array.mpr ?_, ?_, .refl _⟩
    · exact forall_mem_cons.mpr ⟨hdist, distinct_array.mp hdists⟩
    · rw [canonical, canonical, canonical_items, canonical_items, heq, hitems]
  | object_nil => exact ⟨hv, rfl, .refl _⟩
  | @object_cons k x y es fs _ _ ihvalue ihrest =>
    have hcons := distinct_object.mp hv
    obtain ⟨hdist, heq, -⟩ := ihvalue (hcons.2 _ mem_cons_self)
    obtain ⟨hk, hkeys⟩ := nodup_cons.mp hcons.1
    obtain ⟨hdists, -, hperm⟩ :=
      ihrest (distinct_object.mpr ⟨hkeys, fun e he => hcons.2 e (mem_cons_of_mem _ he)⟩)
    have hentries : (canonical_entries float_text printable ((k, x) :: es)).Perm
        (canonical_entries float_text printable ((k, y) :: fs)) := by
      rw [canonical_entries, canonical_entries, heq]
      exact hperm.cons _
    refine ⟨distinct_object.mpr ⟨?_, ?_⟩, canonical_of_perm hcons.1 hentries, hentries⟩
    · refine nodup_cons.mpr ⟨fun hmem => hk ?_, (distinct_object.mp hdists).1⟩
      exact (keys_perm hperm).mem_iff.mpr hmem
    · exact forall_mem_cons.mpr ⟨hdist, (distinct_object.mp hdists).2⟩
  | @reorder es fs hperm =>
    obtain ⟨hkeys, hall⟩ := distinct_object.mp hv
    have hentries : (canonical_entries float_text printable es).Perm
        (canonical_entries float_text printable fs) := by
      rw [canonical_entries_eq, canonical_entries_eq]
      exact hperm.map _
    refine ⟨distinct_object.mpr ⟨?_, ?_⟩, canonical_of_perm hkeys hentries, hentries⟩
    · exact ((hperm.map _).nodup_iff).mp hkeys
    · intro f hf
      exact hall f (hperm.mem_iff.mpr hf)
  | trans _ _ ihuv ihvw =>
    obtain ⟨hdist, huv, hpuv⟩ := ihuv hv
    obtain ⟨hdist', hvw, hpvw⟩ := ihvw hdist
    exact ⟨hdist', huv.trans hvw, hpuv.trans hpvw⟩

/-! ## The text and the hash -/

/-- Two values have one text exactly when they are equal up to the order of the entries of
their objects. -/
theorem canonical_eq_iff (hfloat : FloatText float_text) (v w : Value) :
    canonical float_text printable v.json = canonical float_text printable w.json ↔
      Same Eq v.json w.json := by
  constructor
  · intro h
    have hend : Outside is_numeral [] := by
      intro c hc
      exact absurd hc (by simp)
    exact (canonical_reads hfloat v.json w.json [] [] hend hend (by rw [h])).1
  · intro h
    exact (h.canonical_eq v.distinct).2.1

theorem as_bytes_inj {s t : Str} (h : as_bytes s = as_bytes t) : s = t := by
  have hread (s : Str) : from_utf8_lossy (as_bytes s ++ []) = s ++ from_utf8_lossy [] :=
    lossy_as_bytes_append s []
  have hs := hread s
  rw [h, hread t] at hs
  exact (append_cancel_right hs).symm

/-- Two configs have one text, and one hash where the hash has no collisions, exactly when
they hold the same data, whatever order their objects were written in. -/
theorem canonical_exact (hfloat : FloatText float_text) (sha256_hex : List UInt8 → Str)
    (hsha : Function.Injective sha256_hex) (v w : Value) :
    (canonical float_text printable v.json = canonical float_text printable w.json ↔
      Same Eq v.json w.json) ∧
    (hash_canonical float_text printable sha256_hex v.json
      = hash_canonical float_text printable sha256_hex w.json ↔ Same Eq v.json w.json) := by
  refine ⟨canonical_eq_iff hfloat v w, ?_⟩
  rw [← @canonical_eq_iff _ printable hfloat v w]
  constructor
  · intro h
    exact as_bytes_inj (hsha h)
  · intro h
    rw [hash_canonical, hash_canonical, h]

end

/-! ## Two configs, and the two zeros -/

/-- A text for every finite `f64`, and of the two zeros the one they are printed with. -/
def plain_text (f : Finite) : Str :=
  (if f.bits.toNat < 2 ^ 63 then [] else ['-'])
    ++ (Nat.toDigits 10 (f.bits.toNat % 2 ^ 63) ++ ['.', '0'])

theorem plain_text_inj (f g : Finite) (h : plain_text f = plain_text g) : f = g := by
  have hsign (k l : ℕ) (s t : Str) : '-' :: s ≠ Nat.toDigits 10 k ++ t := by
    intro heq
    cases hk : Nat.toDigits 10 k with
    | nil => exact Nat.toDigits_ne_nil hk
    | cons c cs =>
      rw [hk] at heq
      have hdigit := @digit_of_mem k '-'
        (by rw [hk, (List.cons.inj heq).1]; exact mem_cons_self)
      exact absurd hdigit (by decide)
  have hf := f.bits.toNat_lt
  have hg := g.bits.toNat_lt
  have hbits : f.bits.toNat = g.bits.toNat := by
    unfold plain_text at h
    by_cases hpos : f.bits.toNat < 2 ^ 63
    · by_cases hpos' : g.bits.toNat < 2 ^ 63
      · rw [if_pos hpos, if_pos hpos', nil_append, nil_append] at h
        have := toDigits_inj (by decide) (by decide) (append_cancel_right h)
        omega
      · rw [if_pos hpos, if_neg hpos', nil_append] at h
        exact absurd h.symm (hsign _ 0 _ _)
    · by_cases hpos' : g.bits.toNat < 2 ^ 63
      · rw [if_neg hpos, if_pos hpos', nil_append] at h
        exact absurd h (hsign _ 0 _ _)
      · rw [if_neg hpos, if_neg hpos'] at h
        have := toDigits_inj (by decide) (by decide)
          (append_cancel_right (append_cancel_left h))
        omega
  exact Finite.ext (UInt64.toNat_inj.mp hbits)

theorem plain_text_promised : FloatText plain_text where
  injective := plain_text_inj
  numeral f c hc := by
    unfold plain_text at hc
    rw [mem_append, mem_append] at hc
    rcases hc with hc | hc | hc
    · have : c = '-' := by
        split_ifs at hc
        · exact absurd hc (by simp)
        · simpa using hc
      exact Or.inr (by rw [this]; decide)
    · exact Or.inl (digit_of_mem hc)
    · rcases mem_pair.mp hc with rfl | rfl
      · exact Or.inr (by decide)
      · exact Or.inl (by decide)
  fraction f := ⟨'.', by simp [plain_text], Or.inl rfl⟩

/-- The characters of ASCII that `{:?}` prints as they are. -/
def ascii_printable (c : Char) : Bool := 32 ≤ c.toNat && c.toNat < 127

def zero : Finite := ⟨0, by decide⟩

def minus_zero : Finite := ⟨0x8000000000000000, by decide⟩

/-- A list of a zero and nothing under `a`, and a one under `b`. -/
def config_items : Json := .Array [.Number (.Float zero), .Null]

theorem config_items_distinct : Distinct config_items := by
  rw [config_items, distinct_array]
  intro x hx
  rcases mem_pair.mp hx with rfl | rfl
  · exact .number _
  · exact .null

def config_ab : Value where
  json := .Object [(['a'], config_items), (['b'], .Number (.PosInt 1))]
  distinct := distinct_object.mpr ⟨by decide, by
    intro e he
    rcases mem_pair.mp he with rfl | rfl
    · exact config_items_distinct
    · exact .number _⟩

def config_ba : Value where
  json := .Object [(['b'], .Number (.PosInt 1)), (['a'], config_items)]
  distinct := distinct_object.mpr ⟨by decide, by
    intro e he
    rcases mem_pair.mp he with rfl | rfl
    · exact .number _
    · exact config_items_distinct⟩

/-- SHA-256 of the text of the two configs, and the bytes themselves of every other text, behind
a letter that no digest has. -/
def config_sha256_hex (bytes : List UInt8) : Str :=
  if bytes = as_bytes "\x7b\"a\":[0.0,null,];\"b\":1;\x7d".toList then
    Nat.toDigits 16 0x12a3b5be98282923a58ccda5cc30ed26cdb54900ddbc039bc8e31ec12f0fa78b
  else 'x' :: bytes.map fun b => Char.ofNat b.toNat

theorem config_sha256_hex_inj : Function.Injective config_sha256_hex := by
  have hdigest (n : ℕ) (s : Str) : 'x' :: s ≠ Nat.toDigits 16 n := by
    intro heq
    obtain ⟨d, hd, hx⟩ := @mem_toDigits 16 (by decide) 'x' n (heq ▸ mem_cons_self)
    have hnone : ∀ d < 16, 'x' ≠ Nat.digitChar d := by decide
    exact hnone d hd hx
  have hbyte : Function.Injective fun b : UInt8 => Char.ofNat b.toNat := by
    intro a b hab
    have hcode (c : UInt8) : (Char.ofNat c.toNat).toNat = c.toNat := by
      have hvalid : c.toNat.isValidChar := Or.inl (Nat.lt_of_lt_of_le c.toNat_lt (by decide))
      rw [Char.ofNat, dif_pos hvalid]
      exact Char.toNat_ofNatAux _
    rw [← UInt8.toNat_inj, ← hcode a, ← hcode b]
    exact congrArg Char.toNat hab
  intro s t h
  unfold config_sha256_hex at h
  split_ifs at h with hs ht ht
  · rw [hs, ht]
  · exact absurd h.symm (hdigest _ _)
  · exact absurd h (hdigest _ _)
  · exact map_injective_iff.mpr hbyte (List.cons.inj h).2

theorem canonical_exact_configs :
    canonical plain_text ascii_printable config_ab.json
      = canonical plain_text ascii_printable config_ba.json ∧
    hash_canonical plain_text ascii_printable config_sha256_hex config_ab.json
      = hash_canonical plain_text ascii_printable config_sha256_hex config_ba.json := by
  obtain ⟨htext, hhash⟩ := canonical_exact plain_text_promised config_sha256_hex
    config_sha256_hex_inj config_ab config_ba
  have hsame : Same Eq config_ab.json config_ba.json := .reorder (List.Perm.swap _ _ _)
  exact ⟨htext.mpr hsame, hhash.mpr hsame⟩

/-- Rust takes the two zeros for equal, and they are printed differently. -/
theorem canonical_zeros :
    ¬ ∀ v w : Value, canonical plain_text ascii_printable v.json
        = canonical plain_text ascii_printable w.json ↔ Same Number.eq v.json w.json := by
  intro h
  have hzeros := (h ⟨.Number (.Float zero), .number _⟩
    ⟨.Number (.Float minus_zero), .number _⟩).mpr (.number (Or.inr (by decide)))
  exact absurd hzeros (by decide)

end Lpm.Sync
