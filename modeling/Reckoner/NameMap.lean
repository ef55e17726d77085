/-
  Reckoner.NameMap

  Finite maps keyed by names.

  The entries are kept in ascending order of the names, compared by code point, and the
  order is part of the type. So two maps that answer every look-up alike are equal
  (`NameMap.ext`), and listing the names gives them sorted.
-/

namespace Reckoner

/-- A finite map from names to values, its entries in strictly ascending order of the names. -/
structure NameMap (α : Type) where
  entries : List (String × α)
  ascending : entries.Pairwise fun first second => first.1 < second.1

namespace NameMap

variable {α : Type}

instance [DecidableEq α] : DecidableEq (NameMap α) := fun first second =>
  if h : first.entries = second.entries then
    isTrue (by cases first; cases second; cases h; rfl)
  else
    isFalse fun equal => h (congrArg entries equal)

/-- The map that holds nothing. -/
def empty : NameMap α :=
  ⟨[], .nil⟩

instance : Inhabited (NameMap α) := ⟨empty⟩

/-- The value that an entry list holds for `name`. -/
def lookup (name : String) : List (String × α) → Option α
  | [] => none
  | (key, value) :: rest => if key = name then some value else lookup name rest

/-- The entries with `name` set to `value`: put at its place, or exchanged for the old entry. -/
def place (name : String) (value : α) : List (String × α) → List (String × α)
  | [] => [(name, value)]
  | (key, old) :: rest =>
    if name < key then (name, value) :: (key, old) :: rest
    else if name = key then (name, value) :: rest
    else (key, old) :: place name value rest

theorem mem_place {name : String} {value : α} {entry : String × α} {entries : List (String × α)}
    (h : entry ∈ place name value entries) : entry = (name, value) ∨ entry ∈ entries := by
  fun_induction place name value entries with
  | case1 => simpa using h
  | case2 key old rest _ => simpa using h
  | case3 old rest _ =>
    rcases List.mem_cons.1 h with h | h
    · exact .inl h
    · exact .inr (List.mem_cons_of_mem _ h)
  | case4 key old rest _ _ ih =>
    rcases List.mem_cons.1 h with h | h
    · exact .inr (h ▸ List.mem_cons_self)
    · exact (ih h).imp id (List.mem_cons_of_mem _)

theorem ascending_place (name : String) (value : α) {entries : List (String × α)}
    (h : entries.Pairwise fun first second => first.1 < second.1) :
    (place name value entries).Pairwise fun first second => first.1 < second.1 := by
  fun_induction place name value entries with
  | case1 => simp
  | case2 key old rest before =>
    refine List.pairwise_cons.2 ⟨fun entry member => ?_, h⟩
    rcases List.mem_cons.1 member with rfl | member
    · exact before
    · exact String.lt_trans before (List.rel_of_pairwise_cons h member)
  | case3 old rest _ =>
    exact List.pairwise_cons.2 ⟨fun entry member => List.rel_of_pairwise_cons h member, h.of_cons⟩
  | case4 key old rest notBefore different ih =>
    refine List.pairwise_cons.2 ⟨fun entry member => ?_, ih h.of_cons⟩
    rcases mem_place member with rfl | member
    · grind
    · exact List.rel_of_pairwise_cons h member

/-- The value held for `name`, if there is an entry for it. -/
def find? (map : NameMap α) (name : String) : Option α :=
  lookup name map.entries

/-- Whether there is an entry for `name`. -/
def contains (map : NameMap α) (name : String) : Bool :=
  (map.find? name).isSome

/-- The map with `name` set to `value`. -/
def insert (map : NameMap α) (name : String) (value : α) : NameMap α :=
  ⟨place name value map.entries, ascending_place name value map.ascending⟩

/-- The names that have an entry, in ascending order. -/
def names (map : NameMap α) : List String :=
  map.entries.map Prod.fst

/-- The map of a list of entries; of two entries for one name the later holds. -/
def ofList (entries : List (String × α)) : NameMap α :=
  entries.foldl (fun map entry => map.insert entry.1 entry.2) empty

/-! ## Look-ups after an insertion -/

theorem lookup_place_self (name : String) (value : α) (entries : List (String × α)) :
    lookup name (place name value entries) = some value := by
  fun_induction place name value entries <;> grind [lookup]

theorem lookup_place_of_ne {name other : String} (h : other ≠ name) (value : α)
    (entries : List (String × α)) :
    lookup other (place name value entries) = lookup other entries := by
  fun_induction place name value entries <;> grind [lookup]

@[simp]
theorem find?_insert_self (map : NameMap α) (name : String) (value : α) :
    (map.insert name value).find? name = some value :=
  lookup_place_self name value map.entries

theorem find?_insert_of_ne (map : NameMap α) {name other : String} (h : other ≠ name) (value : α) :
    (map.insert name value).find? other = map.find? other :=
  lookup_place_of_ne h value map.entries

theorem find?_insert (map : NameMap α) (name other : String) (value : α) :
    (map.insert name value).find? other = if other = name then some value else map.find? other := by
  split
  · next h => rw [h, find?_insert_self]
  · next h => exact find?_insert_of_ne map h value

/-! ## Names and equality -/

theorem lookup_isSome_iff {name : String} {entries : List (String × α)} :
    (lookup name entries).isSome ↔ name ∈ entries.map Prod.fst := by
  fun_induction lookup name entries <;> grind

theorem mem_names_iff (map : NameMap α) (name : String) :
    name ∈ map.names ↔ (map.find? name).isSome :=
  lookup_isSome_iff.symm

/-- No name has two entries. -/
theorem nodup_names (map : NameMap α) : map.names.Nodup := by
  rw [names, List.Nodup, List.pairwise_map]
  refine map.ascending.imp ?_
  intro first second below equal
  exact String.lt_irrefl _ (equal ▸ below)

/-- Setting a name that has an entry leaves the names as they are. -/
theorem names_insert_of_contains {map : NameMap α} {name : String} (h : map.contains name)
    (value : α) : (map.insert name value).names = map.names := by
  rw [contains, ← mem_names_iff] at h
  obtain ⟨entries, ascending⟩ := map
  show (place name value entries).map Prod.fst = entries.map Prod.fst
  fun_induction place name value entries with
  | case1 => cases h
  | case2 key old rest before =>
    -- All names are above this one, so it is none of them.
    obtain ⟨entry, member, equal⟩ := List.mem_map.1 h
    rcases List.mem_cons.1 member with rfl | member
    · exact absurd (equal ▸ before) (String.lt_irrefl _)
    · have above : key < entry.1 := List.rel_of_pairwise_cons ascending member
      exact absurd (String.lt_trans before (equal ▸ above)) (String.lt_irrefl _)
  | case3 => rfl
  | case4 key old rest _ different ih =>
    have rest_mem : name ∈ rest.map Prod.fst :=
      (List.mem_cons.1 h).resolve_left different
    rw [List.map_cons, List.map_cons, ih ascending.of_cons rest_mem]

theorem lookup_eq_some_iff {name : String} {value : α} {entries : List (String × α)}
    (ascending : entries.Pairwise fun first second => first.1 < second.1) :
    lookup name entries = some value ↔ (name, value) ∈ entries := by
  fun_induction lookup name entries with
  | case1 => simp
  | case2 key rest =>
    have above : (name, value) ∉ rest := fun member =>
      String.lt_irrefl name (List.rel_of_pairwise_cons ascending member)
    grind
  | case3 key old rest _ ih =>
    rw [ih ascending.of_cons]
    grind

/-- Maps that answer every look-up alike are equal. -/
theorem ext {first second : NameMap α} (h : ∀ name, first.find? name = second.find? name) :
    first = second := by
  obtain ⟨entries, ascending⟩ := first
  obtain ⟨entries', ascending'⟩ := second
  have same : ∀ entry, entry ∈ entries ↔ entry ∈ entries' := fun (name, value) => by
    rw [← lookup_eq_some_iff ascending, ← lookup_eq_some_iff ascending']
    exact iff_of_eq (congrArg (· = some value) (h name))
  -- Two ascending lists with the same members are the same list.
  suffices entries = entries' by cases this; rfl
  have distinct {list : List (String × α)} (h : list.Pairwise fun a b => a.1 < b.1) : list.Nodup := by
    refine h.imp ?_
    intro a b below equal
    exact String.lt_irrefl b.1 (by rwa [equal] at below)
  exact List.Perm.eq_of_pairwise (fun _ _ _ _ below above => (String.lt_asymm below above).elim)
    ascending ascending' ((List.perm_ext_iff_of_nodup (distinct ascending) (distinct ascending')).2 same)

end NameMap

end Reckoner
