import OrderedIndex.Text

/-!
# Types of keys

Some types of keys with their orders, besides those of the library: texts without regard to case,
keys of two parts, keys in reverse order, and the type with a single key.
-/

namespace OrderedIndex

/-! ## Caseless keys

Texts that are ordered, and equal, without regard to the case of ASCII letters.  Two equal keys can
differ in spelling. -/

/-- A text whose ASCII letters count without their case.  Two of them are the same object if they
are spelled alike. -/
structure Caseless where
  text : String
  deriving DecidableEq

namespace Caseless

/-- The spelling that stands for all equal ones. -/
def folded (key : Caseless) : String := key.text.map Char.toLower

instance : Ord Caseless where
  compare a b := compare a.folded b.folded

instance : Std.TransOrd Caseless :=
  inferInstanceAs (Std.TransCmp (compareOn folded))

/-- Keys are equal if they differ in case only. -/
theorem compare_eq_iff {a b : Caseless} : compare a b = .eq ↔ a.folded = b.folded :=
  Std.compare_eq_iff_eq (a := a.folded) (b := b.folded)

instance : BEq Caseless where
  beq a b := a.folded == b.folded

instance : Std.LawfulBEqOrd Caseless where
  compare_eq_iff_beq := compare_eq_iff.trans beq_iff_eq.symm

instance : Described Caseless where
  form key := .named "Ci" [Described.form key.text]

end Caseless

/-! ## Composite keys

Keys of two parts, ordered by the first part and, where this is equal, by the second. -/

/-- A key of two parts. -/
structure Composite (α β : Type) where
  major : α
  minor : β
  deriving BEq

namespace Composite

variable {α β : Type}

instance [Ord α] [Ord β] : Ord (Composite α β) where
  compare a b := (compare a.major b.major).then (compare a.minor b.minor)

instance [Ord α] [Ord β] [Std.TransOrd α] [Std.TransOrd β] : Std.TransOrd (Composite α β) :=
  inferInstanceAs (Std.TransCmp (compareLex (compareOn major) (compareOn minor)))

instance [Described α] [Described β] : Described (Composite α β) where
  form key := .tuple [Described.form key.major, Described.form key.minor]

end Composite

/-! ## Descending keys

Keys in the reverse of their own order. -/

/-- A key that is the smaller the larger its value is. -/
structure Descending (α : Type) where
  value : α
  deriving BEq

namespace Descending

variable {α : Type}

instance [Ord α] : Ord (Descending α) where
  compare a b := compare b.value a.value

instance [Ord α] [Std.TransOrd α] : Std.TransOrd (Descending α) where
  eq_swap {a b} := Std.OrientedOrd.eq_swap (a := b.value) (b := a.value)
  isLE_trans {a b c} hab hbc :=
    Std.TransOrd.isLE_trans (a := c.value) (b := b.value) (c := a.value) hbc hab

instance [Described α] : Described (Descending α) where
  form key := .named "Reverse" [Described.form key.value]

end Descending

/-! ## The trivial key

The key type with a single value.  A tree over it has at most one entry. -/

instance trivialOrd : Ord Unit where
  compare _ _ := .eq

instance trivial_transOrd : Std.TransOrd Unit where
  eq_swap := rfl
  isLE_trans _ _ := rfl

end OrderedIndex
