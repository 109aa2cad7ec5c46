import Resolvent.Expression.Mirror

/-!
# Symbol names

Symbols have dense numbers, handed out in the order in which their names are first seen.  That is
the order in which unknowns are reported.  A table of the names and one of their places mirror each
other, and both can be cut back to an earlier length.

The number of a symbol is a word of 32 bits.  It is the place of the name as long as that is one,
and the largest word for all names behind.
-/

namespace Resolvent

/-- The names of the symbols, each at its place, and their places. -/
structure Symbols where
  /-- The names, in first-seen order. -/
  names : Array String := #[]
  /-- The place of each name. -/
  places : Std.ExtHashMap String Nat := ∅
  /-- The two tables mirror each other. -/
  mirrors : Mirrors id places names := by exact .empty id

namespace Symbols

/-- The largest number of a symbol. -/
def maxId : Nat := 4294967295

/-- The number of the symbol whose name has a place. -/
def idAt (place : Nat) : Nat := min place maxId

/-- The number of names. -/
def size (s : Symbols) : Nat := s.names.size

/-- The place of a name. -/
def place? (s : Symbols) (name : String) : Option Nat := s.places[name]?

/-- The number of a name. -/
def id? (s : Symbols) (name : String) : Option Nat := (s.place? name).map idAt

/-- The name with a number. -/
def name? (s : Symbols) (id : Nat) : Option String := s.names[id]?

/-- The word is the place of a name. -/
def IsNumber (s : Symbols) (id : Nat) : Prop := id < s.size ∧ id ≤ maxId

/-- The number of a name, which gets a place if it is new. -/
def intern (s : Symbols) (name : String) : Nat × Symbols :=
  match h : s.place? name with
  | some place => (idAt place, s)
  | none => (idAt s.size,
    { names := s.names.push name
      places := s.places.insert name s.size
      mirrors := s.mirrors.push (fun _ _ h => h) h rfl })

/-- Forgets the names from a place on. -/
def truncate (s : Symbols) (size : Nat) : Symbols where
  names := s.names.take size
  places := (s.names.toList.drop size).foldl (fun places name => places.erase name) s.places
  mirrors := s.mirrors.take (fun place => ⟨place, rfl⟩) size

theorem idAt_of_le {place : Nat} (h : place ≤ maxId) : idAt place = place := Nat.min_eq_left h

theorem idAt_le (place : Nat) : idAt place ≤ place := Nat.min_le_left ..

theorem idAt_le_maxId (place : Nat) : idAt place ≤ maxId := Nat.min_le_right ..

/-- A name has a place exactly if the name stands there. -/
theorem place?_eq_some_iff {s : Symbols} {name : String} {place : Nat} :
    s.place? name = some place ↔ s.names[place]? = some name := s.mirrors name place

theorem id?_eq_some_iff {s : Symbols} {name : String} {id : Nat} :
    s.id? name = some id ↔ ∃ place, s.names[place]? = some name ∧ idAt place = id := by
  simp only [id?, Option.map_eq_some_iff, place?_eq_some_iff]

theorem isNumber_of_id? {s : Symbols} {name : String} {id : Nat} (h : s.id? name = some id) :
    s.IsNumber id := by
  obtain ⟨place, hplace, rfl⟩ := id?_eq_some_iff.1 h
  exact ⟨Nat.lt_of_le_of_lt (idAt_le place) (Array.getElem?_eq_some_iff.1 hplace).1,
    idAt_le_maxId place⟩

/-- The name with a word for its number has that number. -/
theorem id?_of_name? {s : Symbols} {name : String} {id : Nat} (hid : id ≤ maxId)
    (h : s.name? id = some name) : s.id? name = some id :=
  id?_eq_some_iff.2 ⟨id, h, idAt_of_le hid⟩

/-- As long as there are enough numbers, a name has a number exactly if the number has the name. -/
theorem id?_eq_some_iff_name? {s : Symbols} (hs : s.size ≤ maxId + 1) {name : String} {id : Nat} :
    s.id? name = some id ↔ s.name? id = some name := by
  have hle : ∀ {place}, s.names[place]? = some name → place ≤ maxId := fun h =>
    Nat.le_of_lt_succ (Nat.lt_of_lt_of_le (Array.getElem?_eq_some_iff.1 h).1 hs)
  rw [id?_eq_some_iff]
  constructor
  · rintro ⟨place, h, rfl⟩
    rwa [name?, idAt_of_le (hle h)]
  · exact fun h => ⟨id, h, idAt_of_le (hle h)⟩

theorem eq_of_names {s t : Symbols} (h : s.names = t.names) : s = t := by
  obtain ⟨names, places, hplaces⟩ := s
  obtain ⟨names', places', hplaces'⟩ := t
  subst h
  obtain rfl := hplaces.eq_of_items hplaces'
  rfl

theorem intern_of_place? {s : Symbols} {name : String} {place : Nat}
    (h : s.place? name = some place) : s.intern name = (idAt place, s) := by
  unfold intern
  split
  · next h' => rw [Option.some.inj (h.symm.trans h')]
  · next h' => exact absurd (h.symm.trans h') nofun

theorem intern_of_id? {s : Symbols} {name : String} {id : Nat} (h : s.id? name = some id) :
    s.intern name = (id, s) := by
  obtain ⟨place, hplace, rfl⟩ := Option.map_eq_some_iff.1 h
  exact intern_of_place? hplace

theorem names_intern_of_new {s : Symbols} {name : String} (h : s.place? name = none) :
    (s.intern name).1 = idAt s.size ∧ (s.intern name).2.names = s.names.push name := by
  unfold intern
  split
  · next h' => exact absurd (h.symm.trans h') nofun
  · exact ⟨rfl, rfl⟩

/-- A name that is numbered has a place, which gives the number. -/
theorem exists_place_intern (s : Symbols) (name : String) :
    ∃ place, (s.intern name).2.names[place]? = some name ∧ (s.intern name).1 = idAt place := by
  rcases h : s.place? name with - | place
  · obtain ⟨hid, hnames⟩ := names_intern_of_new h
    exact ⟨s.size, by simp [hnames, size], hid⟩
  · rw [intern_of_place? h]
    exact ⟨place, place?_eq_some_iff.1 h, rfl⟩

theorem truncate_size (s : Symbols) : s.truncate s.size = s :=
  eq_of_names (by simp [truncate, size])

end Symbols

end Resolvent
