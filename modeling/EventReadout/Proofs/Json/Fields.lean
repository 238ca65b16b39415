import EventReadout.Json.Basic
import Mathlib.Data.List.Nodup
import Mathlib.Data.Option.Basic
import Std.Data.String.ToNat

/-!
Fields read by name: what an object or an array gives of them, and the ways to write the same
fields differently.
-/
namespace EventReadout.Json
namespace Value

variable {names : List String} {members members' : List (String × Value)}

/-- An object whose names are all text. -/
def ofMembers (members : List (String × Value)) : Value :=
  .object (members.map fun (name, value) => (some name, value))

/-- All values of a name, in the order of the text. -/
def valuesOf (name : String) (members : List (String × Value)) : List Value :=
  (members.filter (·.1 == name)).map (·.2)

/-- At most one value; more of them are a fault. -/
def atMostOne? : List Value → Option (Option Value)
  | [] => some none
  | [value] => some (some value)
  | _ => none

theorem valuesOf_eq_nil {name : String} (h : name ∉ members.map (·.1)) :
    valuesOf name members = [] := by
  rw [valuesOf, List.map_eq_nil_iff, List.filter_eq_nil_iff]
  intro member hmember heq
  exact h (List.mem_map.2 ⟨member, hmember, by simpa using heq⟩)

theorem valuesOf_cons_self {name : String} {value : Value} :
    valuesOf name ((name, value) :: members) = value :: valuesOf name members := by
  simp [valuesOf]

theorem valuesOf_cons_of_ne {name other : String} {value : Value} (h : other ≠ name) :
    valuesOf name ((other, value) :: members) = valuesOf name members := by
  simp [valuesOf, h]

theorem atMostOne?_toList (given : Option Value) : atMostOne? given.toList = some given := by
  cases given with
  | none => rfl
  | some value => rfl

/-- Values in another order are still none, the same one, or too many. -/
theorem atMostOne?_perm {values values' : List Value} (h : values.Perm values') :
    atMostOne? values = atMostOne? values' := by
  match values with
  | [] => rw [List.nil_perm.1 h]
  | [value] => rw [List.singleton_perm.1 h]
  | first :: second :: rest =>
    match values', h.length_eq with
    | _ :: _ :: _, _ => rfl

theorem mapM_map_zipWith {α β γ : Type} (read : α → Option β) (view : α → β → γ) (keys : List α) :
    (keys.mapM read).map (List.zipWith view keys) =
      keys.mapM fun key => (read key).map (view key) := by
  induction keys with
  | nil => rfl
  | cons key keys ih =>
    rw [List.mapM_cons, List.mapM_cons, ← ih]
    cases read key with
    | none => rfl
    | some found => cases keys.mapM read <;> rfl

theorem mapM_congr {α β : Type} {read read' : α → Option β} {keys : List α}
    (h : ∀ key ∈ keys, read key = read' key) : keys.mapM read = keys.mapM read' := by
  induction keys with
  | nil => rfl
  | cons key keys ih =>
    rw [List.forall_mem_cons] at h
    rw [List.mapM_cons, List.mapM_cons, h.1, ih h.2]

theorem length_of_mapM {α β : Type} {read : α → Option β} {keys : List α} {found : List β}
    (h : keys.mapM read = some found) : found.length = keys.length := by
  induction keys generalizing found with
  | nil =>
    cases h
    rfl
  | cons key keys ih =>
    rw [List.mapM_cons] at h
    obtain ⟨first, -, h⟩ := Option.bind_eq_some_iff.1 h
    obtain ⟨rest, hrest, h⟩ := Option.bind_eq_some_iff.1 h
    cases h
    rw [List.length_cons, List.length_cons, ih hrest]

/-- A member whose name is text. -/
def named? (member : Option String × Value) : Option (String × Value) :=
  member.1.map (·, member.2)

theorem mapM_named? (members : List (String × Value)) :
    (members.map fun member : String × Value => (some member.1, member.2)).mapM named? =
      some members := by
  rw [List.mapM_map]
  exact List.mapM_pure.trans (congrArg some (List.map_id members))

/-- The names of an object are all text, so that only repeated fields are refused. -/
theorem fields?_ofMembers : (ofMembers members).fields? names =
    names.mapM fun name => atMostOne? (valuesOf name members) := by
  change ((members.map fun member : String × Value => (some member.1, member.2)).mapM
    named?).bind _ = _
  rw [mapM_named?, Option.bind_some]
  refine mapM_congr fun name _ => ?_
  rw [valuesOf]
  cases members.filter (·.1 == name) with
  | nil => rfl
  | cons member rest => cases rest <;> rfl

theorem length_fields? {value : Value} {fields : List (Option Value)}
    (h : value.fields? names = some fields) : fields.length = names.length := by
  cases value with
  | array items =>
    rw [fields?] at h
    split at h
    · cases h
    · cases h
      simp
  | object members =>
    obtain ⟨named, -, h⟩ := Option.bind_eq_some_iff.1 h
    exact length_of_mapM h
  | _ => cases h

end Value

/-- What libraries that read documents agree on, as far as a configuration needs it. -/
structure Reader.Lawful (r : Reader) : Prop where
  /-- Members in any order and among others are found by their names, none of which may repeat. -/
  object (names : List String) (members : List (String × Value)) :
    r.fields? names (.ofMembers members) =
      names.mapM fun name => Value.atMostOne? (Value.valuesOf name members)
  /-- Items are found by their positions, and those missing at the end are left out. -/
  array (names : List String) (items : List Value) (h : items.length ≤ names.length) :
    r.fields? names (.array items) = some ((List.range names.length).map (items[·]?))
  /-- What can be read has an entry for each name. -/
  length {names : List String} {value : Value} {fields : List (Option Value)}
    (h : r.fields? names value = some fields) : fields.length = names.length
  /-- Digits are a number as long as it fits a machine word. -/
  size {n : Nat} (h : n < UInt64.size) : r.size? (.number (toString n)) = some n
  /-- A variant without data is its name. -/
  variant {names : List String} {name : String} (h : name ∈ names) :
    r.variant? names (.string (some name)) = some name
  /-- It may also be the only member of an object. -/
  variant_member {names : List String} {name : String} (h : name ∈ names) :
    r.variant? names (.object [(some name, .null)]) = some name
  /-- A file is read like the text in it. -/
  file (bytes : Bytes) : r.file? bytes = r.text? bytes

theorem Value.size?_toString {n : Nat} (h : n < UInt64.size) :
    (Value.number (toString n)).size? = some n := by
  have hdigits : n.repr.all Char.isDigit = true := by
    rw [String.all_bool_eq, List.all_eq_true, Nat.toList_repr]
    exact fun c hc => Nat.isDigit_of_mem_toDigits (by decide) (by decide) hc
  have hvalue : (Value.number (toString n)).natural? = some n := by
    change (if n.repr.all Char.isDigit then n.repr.toNat? else none) = some n
    rw [if_pos hdigits, Nat.toNat?_repr]
  rw [size?, hvalue, Option.filter_some, if_pos (decide_eq_true h)]

theorem Reader.standard_lawful : Reader.standard.Lawful where
  object _ _ := Value.fields?_ofMembers
  array _ _ h := if_neg (Nat.not_lt.2 h)
  length h := Value.length_fields? h
  size h := Value.size?_toString h
  variant h := if_pos h
  variant_member h := if_pos h
  file _ := rfl

namespace Value

variable {r : Reader} (hr : r.Lawful) {names : List String}
  {members members' : List (String × Value)}

/--
What a value gives of the fields with these names. An object has each of them at most once, in any
order and among others; an array has them from the front, in the order of the names.
-/
inductive Gives (names : List String) (given : String → Option Value) : Value → Prop
  | object {members : List (String × Value)}
      (h : ∀ name ∈ names, valuesOf name members = (given name).toList) :
      Gives names given (ofMembers members)
  | array {items : List Value} (hlength : items.length ≤ names.length)
      (h : ∀ (index : Nat) (name : String), names[index]? = some name →
        given name = items[index]?) :
      Gives names given (.array items)

include hr in
theorem Gives.fields? {given : String → Option Value} {value : Value}
    (h : Gives names given value) : r.fields? names value = some (names.map given) := by
  cases h with
  | object h =>
    rw [hr.object]
    refine Eq.trans (mapM_congr fun name hname => ?_) List.mapM_pure
    rw [h name hname, atMostOne?_toList]
    rfl
  | array hlength h =>
    rw [hr.array _ _ hlength, Option.some.injEq]
    apply List.ext_getElem
    · simp
    · intro index hindex _
      have hlt : index < names.length := by simpa using hindex
      simpa using (h index _ (List.getElem?_eq_getElem hlt)).symm

theorem Gives.once (h : ∀ name ∈ names, (valuesOf name members).length ≤ 1) :
    Gives names (fun name => (valuesOf name members).head?) (ofMembers members) := by
  refine .object fun name hname => ?_
  match valuesOf name members, h name hname with
  | [], _ => rfl
  | [value], _ => rfl

theorem Gives.upTo (hnames : names.Nodup) {items : List Value} (h : items.length ≤ names.length) :
    Gives names (fun name => items[names.idxOf name]?) (.array items) := by
  refine .array h fun index name hname => ?_
  obtain ⟨hindex, rfl⟩ := List.getElem?_eq_some_iff.1 hname
  rw [hnames.idxOf_getElem]

/--
Two values that say the same of the fields with these names. A field left out stands for `blank`,
if there is one, and `inner` says which values of a field are the same.
-/
inductive Reworded (names : List String) (blank : Option Value)
    (inner : String → Value → Value → Prop) : Value → Value → Prop
  | order {members members' : List (String × Value)} (h : members.Perm members') :
      Reworded names blank inner (ofMembers members) (ofMembers members')
  | unknown {name : String} (value : Value) (members : List (String × Value))
      (h : name ∉ names) :
      Reworded names blank inner (ofMembers ((name, value) :: members)) (ofMembers members)
  | leftOut {name : String} {value : Value} {members : List (String × Value)}
      (hblank : blank = some value) (h : name ∉ members.map (·.1)) :
      Reworded names blank inner (ofMembers ((name, value) :: members)) (ofMembers members)
  | positional {items : List Value} (h : items.length ≤ names.length) :
      Reworded names blank inner (.array items) (ofMembers (names.zip items))
  | field {name : String} {value value' : Value} (members : List (String × Value))
      (h : inner name value value') :
      Reworded names blank inner (ofMembers ((name, value) :: members))
        (ofMembers ((name, value') :: members))
  | symm {value value' : Value} (h : Reworded names blank inner value value') :
      Reworded names blank inner value' value
  | trans {value value' value'' : Value} (h : Reworded names blank inner value value')
      (h' : Reworded names blank inner value' value'') :
      Reworded names blank inner value value''

theorem valuesOf_zip (hnames : names.Nodup) {items : List Value} {index : Nat} {name : String}
    (h : names[index]? = some name) : valuesOf name (names.zip items) = items[index]?.toList := by
  induction names generalizing items index with
  | nil => simp at h
  | cons first names ih =>
    obtain ⟨hfirst, hnames⟩ := List.nodup_cons.1 hnames
    cases items with
    | nil => simp [valuesOf]
    | cons item items =>
      rw [List.zip_cons_cons]
      cases index with
      | zero =>
        obtain rfl : first = name := by simpa using h
        have hrest : first ∉ (names.zip items).map (·.1) := by
          intro hmem
          obtain ⟨member, hmember, rfl⟩ := List.mem_map.1 hmem
          exact hfirst (List.of_mem_zip hmember).1
        rw [valuesOf_cons_self, valuesOf_eq_nil hrest]
        rfl
      | succ index =>
        have hname : names[index]? = some name := by simpa using h
        have hne : first ≠ name := by
          rintro rfl
          exact hfirst (List.mem_of_getElem? hname)
        rw [valuesOf_cons_of_ne hne, ih hnames hname]
        rfl

include hr in
/-- An array says the same as the object with its items in the order of the names. -/
theorem fields?_array (hnames : names.Nodup) {items : List Value}
    (h : items.length ≤ names.length) :
    r.fields? names (.array items) = r.fields? names (ofMembers (names.zip items)) := by
  have hobject : Gives names (fun name => items[names.idxOf name]?) (ofMembers (names.zip items)) :=
    .object fun name hname => valuesOf_zip hnames (List.getElem?_idxOf hname)
  rw [(Gives.upTo hnames h).fields? hr, hobject.fields? hr]

section Views

variable {β : Type} {blank : Option Value} {inner : String → Value → Value → Prop}
  {view : String → Option Value → β}

include hr

/-- Members that look the same under every name are the same object. -/
theorem view_ofMembers (view : String → Option Value → β)
    (h : ∀ name ∈ names, (atMostOne? (valuesOf name members)).map (view name) =
      (atMostOne? (valuesOf name members')).map (view name)) :
    (r.fields? names (ofMembers members)).map (List.zipWith view names) =
      (r.fields? names (ofMembers members')).map (List.zipWith view names) := by
  rw [hr.object, hr.object, mapM_map_zipWith, mapM_map_zipWith]
  exact mapM_congr h

/-- Whoever looks at each field only as far as `inner` and `blank` tell sees no other wording. -/
theorem Reworded.view_eq (hnames : names.Nodup)
    (hinner : ∀ name value value', inner name value value' →
      view name (some value) = view name (some value'))
    (hblank : ∀ value, blank = some value →
      ∀ name ∈ names, view name (some value) = view name none)
    {value value' : Value} (h : Reworded names blank inner value value') :
    (r.fields? names value).map (List.zipWith view names) =
      (r.fields? names value').map (List.zipWith view names) := by
  induction h with
  | order h =>
    refine view_ofMembers hr view fun name _ => ?_
    rw [valuesOf, valuesOf, atMostOne?_perm ((h.filter _).map _)]
  | unknown value members h =>
    refine view_ofMembers hr view fun name hname => ?_
    rw [valuesOf_cons_of_ne]
    rintro rfl
    exact h hname
  | @leftOut left value members hleft h =>
    refine view_ofMembers hr view fun name hname => ?_
    by_cases heq : left = name
    · subst heq
      rw [valuesOf_cons_self, valuesOf_eq_nil h]
      exact congrArg some (hblank value hleft left hname)
    · rw [valuesOf_cons_of_ne heq]
  | positional h => rw [fields?_array hr hnames h]
  | @field changed value value' members h =>
    refine view_ofMembers hr view fun name _ => ?_
    by_cases heq : changed = name
    · subst heq
      rw [valuesOf_cons_self, valuesOf_cons_self]
      cases valuesOf changed members with
      | nil => exact congrArg some (hinner changed value value' h)
      | cons => rfl
    · rw [valuesOf_cons_of_ne heq, valuesOf_cons_of_ne heq]
  | symm _ ih => exact ih.symm
  | trans _ _ ih ih' => exact ih.trans ih'

/-- Fields that may not be left out and have one wording each are themselves the same. -/
theorem Reworded.fields?_eq (hnames : names.Nodup) {value value' : Value}
    (h : Reworded names none (fun _ _ _ => False) value value') :
    r.fields? names value = r.fields? names value' := by
  have hwhole (value : Value) :
      (r.fields? names value).map (List.zipWith (fun _ field => field) names) =
        r.fields? names value := by
    cases hfields : r.fields? names value with
    | none => rfl
    | some fields =>
      rw [Option.map_some, ← List.map_uncurry_zip_eq_zipWith]
      exact congrArg some (List.map_snd_zip (Nat.le_of_eq (hr.length hfields)))
  rw [← hwhole value, ← hwhole value']
  exact h.view_eq hr hnames (fun _ _ _ h => h.elim) (fun _ h => by cases h)

end Views
end Value
end EventReadout.Json
