/-
  Copying.lean --- `copy-value` with the option `deep`.

  The heap is a list of objects and an address is a place in it; what is allocated goes to the
  end.  A string has its code points in place, a substring points into its parent.

  `idio_copy_pair` makes a new spine, but the heads of the pairs and what ends the list are those
  of the original; so are the default of an array, the keys of a hash table and the parent of a
  substring.  `Shared` is what a copy has in common with the original, and `copy_separate` says
  that the copy is separate just if no part of the value can be set there, and no substring is
  copied: literals have a flag that makes them constant, and copies do not.
-/
import Idio.Value.Basic

set_option autoImplicit false

namespace Idio.Copying

/-! ## The heap -/

/-- A value: a fixnum, a constant or a symbol, or else an object. -/
inductive Val where
  | atom (n : Int)
  | ref (a : Nat)
  deriving DecidableEq, Repr

/-- What is at an address; `const` is `IDIO_FLAG_CONST`, which the mutators of pairs and bitsets
do not look at. -/
inductive Obj where
  | string (const : Bool) (flags : StringFlags) (chars : List Nat)
  | substring (const : Bool) (parent offset len : Nat)
  | pair (h t : Val)
  | array (const : Bool) (ae : List Val) (dv : Val)
  | bignum (bn : Bignum)
  | bitset (bits : List Bool)
  /-- the keys and values, in the order of the chains -/
  | hash (const : Bool) (entries : List (Val × Val))

abbrev Heap : Type := List Obj

/-- The values in an object. -/
def Obj.elements : Obj → List Val
  | .pair h t => [h, t]
  | .array _ ae dv => dv :: ae
  | .hash _ entries => entries.map Prod.fst ++ entries.map Prod.snd
  | _ => []

/-- The values that an object depends on: also the parent of a substring that has code points. -/
def Obj.children : Obj → List Val
  | .substring _ parent _ len => if 0 < len then [.ref parent] else []
  | o => o.elements

/-- There is a way from the value to the address. -/
inductive Via (next : Obj → List Val) (h : Heap) : Val → Nat → Prop where
  | here (a : Nat) : Via next h (.ref a) a
  | child {a b : Nat} {o : Obj} {c : Val} :
      h[a]? = some o → c ∈ next o → Via next h c b → Via next h (.ref a) b

/-- The object at an address is a part of the value. -/
abbrev Part : Heap → Val → Nat → Prop := Via Obj.elements

/-- The value depends on the object at an address. -/
abbrev Reach : Heap → Val → Nat → Prop := Via Obj.children

/-- One value is a component of another. -/
def Child (h : Heap) (c v : Val) : Prop :=
  ∃ a o, v = .ref a ∧ h[a]? = some o ∧ c ∈ o.children

/-- What a value depends on is there. -/
def Live (h : Heap) (v : Val) : Prop := ∀ a, Reach h v a → a < h.length

/-- A substring is inside its parent, which is a string. -/
def Inside (h : Heap) (v : Val) : Prop :=
  ∀ a, Reach h v a → ∀ const parent offset len,
    h[a]? = some (.substring const parent offset len) →
    ∃ const flags chars, h[parent]? = some (.string const flags chars) ∧
      offset + len ≤ chars.length

/-- Data that can be copied: all its parts exist, and it is not circular. -/
structure Data where
  heap : Heap
  value : Val
  live : Live heap value
  inside : Inside heap value
  acyclic : Acc (Child heap) value

/-! ## Copies -/

/-- A new object. -/
def Heap.alloc (h : Heap) (o : Obj) : Heap × Val := (h ++ [o], .ref h.length)

/-- The head and tail of a value that is a pair. -/
def Heap.pairAt (h : Heap) : Val → Option (Val × Val)
  | .atom _ => none
  | .ref a => match h[a]? with
      | some (.pair x t) => some (x, t)
      | _ => none

/-- The loop of `idio_copy_pair`, with the option `deep`: new pairs with the heads of the old ones,
and the end of the list. -/
def copyPair : Nat → Heap → Val → Option (Heap × Val)
  | 0, _, _ => none
  | fuel + 1, h, v => match h.pairAt v with
      | none => some (h, v)
      | some (x, t) => do
          let (h, t) ← copyPair fuel h t
          some (h.alloc (.pair x t))

/-- Copy some values one after the other. -/
def copyList (copy : Heap → Val → Option (Heap × Val)) :
    Heap → List Val → Option (Heap × List Val)
  | h, [] => some (h, [])
  | h, v :: vs => do
      let (h, w) ← copy h v
      let (h, ws) ← copyList copy h vs
      some (h, w :: ws)

/-- `idio_copy` with the option `deep`. -/
def copy : Nat → Heap → Val → Option (Heap × Val)
  | 0, _, _ => none
  | _ + 1, h, .atom n => some (h, .atom n)
  | fuel + 1, h, .ref a => match h[a]? with
      | none => none
      -- `idio_copy_string`; no flag of an object is copied
      | some (.string _ flags chars) => some (h.alloc (.string false flags chars))
      | some (.substring _ parent offset len) =>
          some (h.alloc (.substring false parent offset len))
      | some (.pair _ _) => copyPair fuel h (.ref a)
      -- `idio_copy_array`
      | some (.array _ ae dv) => do
          let (h, ae) ← copyList (copy fuel) h ae
          some (h.alloc (.array false ae dv))
      -- `idio_copy_hash`
      | some (.hash _ entries) => do
          let (h, vs) ← copyList (copy fuel) h (entries.map Prod.snd)
          some (h.alloc (.hash false ((entries.map Prod.fst).zip vs)))
      | some (.bignum bn) => some (h.alloc (.bignum bn))
      | some (.bitset bits) => some (h.alloc (.bitset bits))

/-! ## Equality -/

/-- The code points of a string or substring. -/
def Heap.text (h : Heap) (a : Nat) : Option (StringFlags × List Nat) :=
  match h[a]? with
  | some (.string _ flags chars) => some (flags, chars)
  | some (.substring _ parent offset len) => match h[parent]? with
      | some (.string _ flags chars) => some (flags, (chars.drop offset).take len)
      | _ => none
  | _ => none

/-- `equal?` -/
inductive Equal (h : Heap) : Val → Val → Prop where
  | same (v : Val) : Equal h v v
  | text {a b : Nat} {s : StringFlags × List Nat} :
      h.text a = some s → h.text b = some s → Equal h (.ref a) (.ref b)
  | pair {a b : Nat} {x t y u : Val} :
      h[a]? = some (.pair x t) → h[b]? = some (.pair y u) → Equal h x y → Equal h t u →
        Equal h (.ref a) (.ref b)
  | array {a b : Nat} {const const' : Bool} {xs ys : List Val} {dv dv' : Val} :
      h[a]? = some (.array const xs dv) → h[b]? = some (.array const' ys dv') →
        xs.length = ys.length →
        (∀ (i : Nat) (x y : Val), xs[i]? = some x → ys[i]? = some y → Equal h x y) →
        Equal h (.ref a) (.ref b)
  | bignum {a b : Nat} {bn : Bignum} :
      h[a]? = some (.bignum bn) → h[b]? = some (.bignum bn) → Equal h (.ref a) (.ref b)
  | bitset {a b : Nat} {bits : List Bool} :
      h[a]? = some (.bitset bits) → h[b]? = some (.bitset bits) → Equal h (.ref a) (.ref b)
  | hash {a b : Nat} {const const' : Bool} {ks xs ys : List Val} :
      h[a]? = some (.hash const (ks.zip xs)) → h[b]? = some (.hash const' (ks.zip ys)) →
        ks.length = xs.length → ks.length = ys.length →
        (∀ (i : Nat) (x y : Val), xs[i]? = some x → ys[i]? = some y → Equal h x y) →
        Equal h (.ref a) (.ref b)

/-! ## Mutations -/

/-- How wide a code point is stored. -/
def charWidth (c : Nat) : Nat := if c ≤ 0xff then 1 else if c ≤ 0xffff then 2 else 4

/-- `idio_string_storage_size` -/
def storageSize : StringFlags → Nat
  | .twoByte => 2
  | .fourByte => 4
  | _ => 1

/-- What a mutation of the object at `a` makes of the heap; an object that is constant is an error
for all but `set-ph!`, `set-pt!` and the mutators of bitsets. -/
inductive Mutates (h : Heap) (a : Nat) : Heap → Prop where
  /-- `set-ph!` -/
  | setPh {x t : Val} (v : Val) : h[a]? = some (.pair x t) → Mutates h a (h.set a (.pair v t))
  /-- `set-pt!` -/
  | setPt {x t : Val} (v : Val) : h[a]? = some (.pair x t) → Mutates h a (h.set a (.pair x v))
  /-- `array-set!` -/
  | arraySet {ae : List Val} {dv : Val} (i : Nat) (v : Val) :
      h[a]? = some (.array false ae dv) → i < ae.length →
        Mutates h a (h.set a (.array false (ae.set i v) dv))
  /-- `array-set!` of the element after the last -/
  | arrayAppend {ae : List Val} {dv : Val} (v : Val) :
      h[a]? = some (.array false ae dv) → Mutates h a (h.set a (.array false (ae ++ [v]) dv))
  /-- `hash-set!` of a key that is there -/
  | hashReplace {l r : List (Val × Val)} {k k' x : Val} (v : Val) :
      h[a]? = some (.hash false (l ++ (k', x) :: r)) → Equal h k k' →
        Mutates h a (h.set a (.hash false (l ++ (k', v) :: r)))
  /-- `hash-set!` of another key -/
  | hashAdd {entries : List (Val × Val)} {k : Val} (v : Val) :
      h[a]? = some (.hash false entries) → (∀ e ∈ entries, ¬ Equal h k e.1) →
        Mutates h a (h.set a (.hash false (entries ++ [(k, v)])))
  /-- `hash-delete!` -/
  | hashDelete {l r : List (Val × Val)} {k k' x : Val} :
      h[a]? = some (.hash false (l ++ (k', x) :: r)) → Equal h k k' →
        Mutates h a (h.set a (.hash false (l ++ r)))
  /-- `string-set!` -/
  | stringSet {flags : StringFlags} {chars : List Nat} (i c : Nat) :
      h[a]? = some (.string false flags chars) → i < chars.length →
        charWidth c ≤ storageSize flags → Mutates h a (h.set a (.string false flags (chars.set i c)))
  /-- `string-set!` of a substring, which is stored in its parent, constant or not -/
  | substringSet {parent offset len : Nat} {const : Bool} {flags : StringFlags} {chars : List Nat}
      (i c : Nat) :
      h[a]? = some (.substring false parent offset len) → i < len →
        h[parent]? = some (.string const flags chars) → offset + i < chars.length →
        charWidth c ≤ storageSize flags →
        Mutates h a (h.set parent (.string const flags (chars.set (offset + i) c)))
  /-- `set-bitset!` and `clear-bitset!` -/
  | bitsetSet {bits : List Bool} (i : Nat) (b : Bool) :
      h[a]? = some (.bitset bits) → i < bits.length → Mutates h a (h.set a (.bitset (bits.set i b)))

/-- Mutations of objects of `parts`, one after the other. -/
inductive Run (parts : Nat → Prop) (h : Heap) : Heap → Prop where
  | start : Run parts h h
  | step {h₁ h₂ : Heap} {a : Nat} : Run parts h h₁ → parts a → Mutates h₁ a h₂ → Run parts h h₂

/-- No mutations of parts of one of two values change what the other depends on. -/
def Separate (h : Heap) (v w : Val) : Prop :=
  (∀ h', Run (Part h w) h h' → ∀ a, Reach h v a → h'[a]? = h[a]?) ∧
    ∀ h', Run (Part h v) h h' → ∀ a, Reach h w a → h'[a]? = h[a]?

/-! ## What is shared -/

/-- What the heads of a list and what it ends with depend on. -/
inductive SpineShared (h : Heap) : Val → Nat → Prop where
  | last {v : Val} {a : Nat} : h.pairAt v = none → Reach h v a → SpineShared h v a
  | head {v x t : Val} {a : Nat} :
      h.pairAt v = some (x, t) → Reach h x a → SpineShared h v a
  | rest {v x t : Val} {a : Nat} :
      h.pairAt v = some (x, t) → SpineShared h t a → SpineShared h v a

/-- What the copy of a value depends on as well. -/
inductive Shared (h : Heap) : Val → Nat → Prop where
  | spine {p a : Nat} {x t : Val} :
      h[p]? = some (.pair x t) → SpineShared h (.ref p) a → Shared h (.ref p) a
  | parent {p a parent offset len : Nat} {const : Bool} :
      h[p]? = some (.substring const parent offset len) → 0 < len → Reach h (.ref parent) a →
        Shared h (.ref p) a
  | dv {p a : Nat} {const : Bool} {ae : List Val} {dv : Val} :
      h[p]? = some (.array const ae dv) → Reach h dv a → Shared h (.ref p) a
  | element {p a : Nat} {const : Bool} {ae : List Val} {dv x : Val} :
      h[p]? = some (.array const ae dv) → x ∈ ae → Shared h x a → Shared h (.ref p) a
  | key {p a : Nat} {const : Bool} {entries : List (Val × Val)} {k : Val} :
      h[p]? = some (.hash const entries) → k ∈ entries.map Prod.fst → Reach h k a →
        Shared h (.ref p) a
  | value {p a : Nat} {const : Bool} {entries : List (Val × Val)} {x : Val} :
      h[p]? = some (.hash const entries) → x ∈ entries.map Prod.snd → Shared h x a →
        Shared h (.ref p) a

/-- The parent of a substring that has code points and is copied. -/
inductive CopiedParent (h : Heap) : Val → Nat → Prop where
  | here {p parent offset len : Nat} {const : Bool} :
      h[p]? = some (.substring const parent offset len) → 0 < len →
        CopiedParent h (.ref p) parent
  | element {p b : Nat} {const : Bool} {ae : List Val} {dv x : Val} :
      h[p]? = some (.array const ae dv) → x ∈ ae → CopiedParent h x b → CopiedParent h (.ref p) b
  | value {p b : Nat} {const : Bool} {entries : List (Val × Val)} {x : Val} :
      h[p]? = some (.hash const entries) → x ∈ entries.map Prod.snd → CopiedParent h x b →
        CopiedParent h (.ref p) b

/-- Where a mutation of the object at `a` writes, if there is one that does. -/
def Obj.written (a : Nat) : Obj → Option Nat
  | .string const _ chars => if const ∨ chars = [] then none else some a
  | .substring const parent _ len => if const ∨ len = 0 then none else some parent
  | .pair _ _ => some a
  | .array const _ _ => if const then none else some a
  | .bignum _ => none
  | .bitset bits => if bits = [] then none else some a
  | .hash const _ => if const then none else some a

def Heap.written (h : Heap) (a : Nat) : Option Nat := h[a]?.bind (Obj.written a)

/-- No substring is copied, and no part of the value can be set where the copy shares it: in the
heads of its lists and what they end with, the defaults of its arrays and the keys of its hash
tables. -/
def Data.Unshared (d : Data) : Prop :=
  (∀ b, ¬ CopiedParent d.heap d.value b) ∧
    ∀ a b, Part d.heap d.value a → d.heap.written a = some b → ¬ Shared d.heap d.value b

section Heaps

variable {h h₁ h₂ : Heap} {v w x t : Val} {a b : Nat} {o : Obj} {fuel : Nat}

/-! ## A heap that grows -/

theorem Live.child (hlive : Live h (.ref a)) (ho : h[a]? = some o) {c : Val}
    (hc : c ∈ o.children) : Live h c :=
  fun b hb => hlive b (.child ho hc hb)

/-- An object that is there stays where it is. -/
theorem get_of_grows (hpre : h <+: h₁) (ha : a < h.length) : h₁[a]? = h[a]? := by
  obtain ⟨new, rfl⟩ := hpre
  exact List.getElem?_append_left ha

theorem get_some_of_grows (hpre : h <+: h₁) (ho : h[a]? = some o) : h₁[a]? = some o :=
  (get_of_grows hpre (List.getElem?_eq_some_iff.mp ho).1).trans ho

theorem Via.mono {next : Obj → List Val} (hpre : h <+: h₁) (hr : Via next h v a) :
    Via next h₁ v a := by
  induction hr with
  | here a => exact .here a
  | child ho hc _ ih => exact .child (get_some_of_grows hpre ho) hc ih

theorem elements_subset (o : Obj) : o.elements ⊆ o.children := by
  intro c hc
  cases o <;> first | exact hc | cases hc

/-- The parts are among what the value depends on. -/
theorem Via.reach {next : Obj → List Val} (hnext : ∀ o, next o ⊆ o.children)
    (hr : Via next h v a) : Reach h v a := by
  induction hr with
  | here a => exact .here a
  | child ho hc _ ih => exact .child ho (hnext _ hc) ih

/-- A value has no other ways in a heap that has grown. -/
theorem via_prefix_iff {next : Obj → List Val} (hnext : ∀ o, next o ⊆ o.children)
    (hpre : h <+: h₁) (hlive : Live h v) : Via next h₁ v a ↔ Via next h v a := by
  refine ⟨fun hr => ?_, fun hr => hr.mono hpre⟩
  induction hr with
  | here a => exact .here a
  | child ho hc _ ih =>
    rw [get_of_grows hpre (hlive _ (.here _))] at ho
    exact .child ho hc (ih (hlive.child ho (hnext _ hc)))

theorem reach_prefix_iff (hpre : h <+: h₁) (hlive : Live h v) : Reach h₁ v a ↔ Reach h v a :=
  via_prefix_iff (fun _ => List.Subset.refl _) hpre hlive

theorem part_prefix_iff (hpre : h <+: h₁) (hlive : Live h v) : Part h₁ v a ↔ Part h v a :=
  via_prefix_iff elements_subset hpre hlive

theorem Live.part (hlive : Live h v) (ha : Part h v a) : a < h.length :=
  hlive a (ha.reach elements_subset)

theorem Live.mono (hlive : Live h v) (hpre : h <+: h₁) : Live h₁ v := fun a ha =>
  Nat.lt_of_lt_of_le (hlive a ((reach_prefix_iff hpre hlive).mp ha)) hpre.length_le

theorem Via.trans {next : Obj → List Val} (hr : Via next h v a) (hr' : Via next h (.ref a) b) :
    Via next h v b := by
  induction hr with
  | here a => exact hr'
  | child ho hc _ ih => exact .child ho hc (ih hr')

theorem Live.at (hlive : Live h v) (ha : Part h v a) : Live h (.ref a) :=
  fun b hb => hlive b ((ha.reach elements_subset).trans hb)

theorem Inside.at (hin : Inside h v) (ha : Part h v a) : Inside h (.ref a) :=
  fun b hb => hin b ((ha.reach elements_subset).trans hb)

theorem Inside.mono (hin : Inside h v) (hlive : Live h v) (hpre : h <+: h₁) : Inside h₁ v := by
  intro a ha const parent offset len hget
  have ha := (reach_prefix_iff hpre hlive).mp ha
  rw [get_of_grows hpre (hlive a ha)] at hget
  obtain ⟨constp, flags, chars, hparent, hle⟩ := hin a ha const parent offset len hget
  exact ⟨constp, flags, chars, get_some_of_grows hpre hparent, hle⟩

/-- A substring of a string. -/
theorem inside_substring {parent offset len : Nat} {const constp : Bool} {flags : StringFlags}
    {chars : List Nat} (ho : h[a]? = some (.substring const parent offset len))
    (hparent : h[parent]? = some (.string constp flags chars)) (hle : offset + len ≤ chars.length) :
    Inside h (.ref a) := by
  intro b hb const' parent' offset' len' hget
  cases hb with
  | here =>
    rw [ho] at hget
    cases hget
    exact ⟨constp, flags, chars, hparent, hle⟩
  | child ho' hc hr =>
    rw [ho] at ho'
    cases ho'
    rw [Obj.children] at hc
    split at hc
    · rw [List.mem_singleton.mp hc] at hr
      cases hr with
      | here =>
        rw [hparent] at hget
        cases hget
      | child ho'' hc' _ =>
        rw [hparent] at ho''
        cases ho''
        cases hc'
    · cases hc

theorem written_of_grows (hpre : h <+: h₁) (ha : a < h.length) : h₁.written a = h.written a := by
  rw [Heap.written, get_of_grows hpre ha, Heap.written]

theorem pairAt_grows (hpre : h <+: h₁) (hlive : Live h v) : h₁.pairAt v = h.pairAt v := by
  cases v with
  | atom n => rfl
  | ref a => rw [Heap.pairAt, get_of_grows hpre (hlive a (.here a)), Heap.pairAt]

theorem pairAt_eq_some (h : Heap) (v x t : Val) :
    h.pairAt v = some (x, t) ↔ ∃ a, v = .ref a ∧ h[a]? = some (.pair x t) := by
  cases v with
  | atom n => simp [Heap.pairAt]
  | ref a =>
    rw [Heap.pairAt]
    split
    · rename_i y u hget
      simp [hget]
    · rename_i hne
      constructor
      · intro hc
        cases hc
      · rintro ⟨b, hb, hget⟩
        cases hb
        exact absurd hget (hne x t)

theorem text_mono (hpre : h <+: h₁) {s : StringFlags × List Nat} (ht : h.text a = some s) :
    h₁.text a = some s := by
  rw [Heap.text] at ht ⊢
  cases ho : h[a]? with
  | none =>
    rw [ho] at ht
    cases ht
  | some o =>
    rw [ho] at ht
    rw [get_some_of_grows hpre ho]
    cases o with
    | substring const parent offset len =>
      dsimp only at ht ⊢
      cases hp : h[parent]? with
      | none =>
        rw [hp] at ht
        cases ht
      | some op =>
        rw [hp] at ht
        rw [get_some_of_grows hpre hp]
        exact ht
    | _ => exact ht

theorem Equal.mono (hpre : h <+: h₁) (he : Equal h v w) : Equal h₁ v w := by
  induction he with
  | same v => exact .same v
  | text ha hb => exact .text (text_mono hpre ha) (text_mono hpre hb)
  | pair ha hb _ _ ihx iht =>
    exact .pair (get_some_of_grows hpre ha) (get_some_of_grows hpre hb) ihx iht
  | array ha hb hlen _ ih =>
    exact .array (get_some_of_grows hpre ha) (get_some_of_grows hpre hb) hlen ih
  | bignum ha hb => exact .bignum (get_some_of_grows hpre ha) (get_some_of_grows hpre hb)
  | bitset ha hb => exact .bitset (get_some_of_grows hpre ha) (get_some_of_grows hpre hb)
  | hash ha hb hxs hys _ ih =>
    exact .hash (get_some_of_grows hpre ha) (get_some_of_grows hpre hb) hxs hys ih

/-! ## A new object -/

theorem alloc_grows (h : Heap) (o : Obj) : h <+: (h.alloc o).1 := List.prefix_append h [o]

theorem alloc_get (h : Heap) (o : Obj) : (h.alloc o).1[h.length]? = some o :=
  List.getElem?_concat_length

/-- The ways from a new object go by what it refers to. -/
theorem via_alloc {next : Obj → List Val} (hnext : ∀ o, next o ⊆ o.children)
    (hlive : ∀ c ∈ o.children, Live h c) :
    Via next (h.alloc o).1 (h.alloc o).2 a ↔ a = h.length ∨ ∃ c ∈ next o, Via next h c a := by
  constructor
  · intro hr
    cases hr with
    | here => exact .inl rfl
    | child ho hc hr =>
      rw [alloc_get] at ho
      cases ho
      exact .inr ⟨_, hc, (via_prefix_iff hnext (alloc_grows h o) (hlive _ (hnext _ hc))).mp hr⟩
  · rintro (rfl | ⟨c, hc, hr⟩)
    · exact .here _
    · exact .child (alloc_get h o) hc (hr.mono (alloc_grows h o))

theorem reach_alloc (hlive : ∀ c ∈ o.children, Live h c) :
    Reach (h.alloc o).1 (h.alloc o).2 a ↔ a = h.length ∨ ∃ c ∈ o.children, Reach h c a :=
  via_alloc (fun _ => List.Subset.refl _) hlive

theorem part_alloc (hlive : ∀ c ∈ o.children, Live h c) :
    Part (h.alloc o).1 (h.alloc o).2 a ↔ a = h.length ∨ ∃ c ∈ o.elements, Part h c a :=
  via_alloc elements_subset hlive

theorem live_alloc (hlive : ∀ c ∈ o.children, Live h c) :
    Live (h.alloc o).1 (h.alloc o).2 := by
  intro a ha
  rw [Heap.alloc, List.length_append]
  rcases (reach_alloc hlive).mp ha with rfl | ⟨c, hc, hr⟩
  · exact Nat.lt_succ_self _
  · exact Nat.lt_succ_of_lt (hlive c hc a hr)

/-- What a copy has to do with the value: what both depend on, the parts of the value, and the
parents of the substrings that are copied. -/
structure Sharing where
  shared : Nat → Prop
  part : Nat → Prop
  parent : Nat → Prop

/-- A value in a copy that is made when the heap was `h₁`: it is there, what was there before is
shared or a part, and a new part is written in place or in a parent that is shared. -/
structure Within (h₁ : Heap) (s : Sharing) (h₂ : Heap) (w : Val) : Prop where
  live : Live h₂ w
  old : ∀ a, Reach h₂ w a → a < h₁.length → s.shared a
  part : ∀ a, Part h₂ w a → a < h₁.length → s.part a
  fresh : ∀ a b, Part h₂ w a → h₁.length ≤ a → h₂.written a = some b → b = a ∨ s.parent b

/-- What a copy `w` of a value `v` is: equal to it, with all that is shared, and with a part that
is written there for every parent of a substring that is copied. -/
structure CopyOf (h₁ : Heap) (s : Sharing) (v : Val) (h₂ : Heap) (w : Val) : Prop
    extends Within h₁ s h₂ w where
  grows : h₁ <+: h₂
  new : ∀ a, s.shared a → Reach h₂ w a
  set : ∀ b, s.parent b → ∃ a, Part h₂ w a ∧ h₂.written a = some b ∧ Inside h₂ (.ref a)
  equal : Equal h₂ v w

theorem Within.mono {s : Sharing} {h₃ : Heap} (hw : Within h₁ s h₂ w) (hpre : h₂ <+: h₃) :
    Within h₁ s h₃ w where
  live := hw.live.mono hpre
  old a ha hlt := hw.old a ((reach_prefix_iff hpre hw.live).mp ha) hlt
  part a ha hlt := hw.part a ((part_prefix_iff hpre hw.live).mp ha) hlt
  fresh a b ha hle hb := by
    have ha := (part_prefix_iff hpre hw.live).mp ha
    rw [written_of_grows hpre (hw.live.part ha)] at hb
    exact hw.fresh a b ha hle hb

theorem Within.imp {s s' : Sharing} (hw : Within h₁ s h₂ w) (hshared : ∀ a, s.shared a → s'.shared a)
    (hpart : ∀ a, s.part a → s'.part a) (hparent : ∀ a, s.parent a → s'.parent a) :
    Within h₁ s' h₂ w where
  live := hw.live
  old a ha hlt := hshared a (hw.old a ha hlt)
  part a ha hlt := hpart a (hw.part a ha hlt)
  fresh a b ha hle hb := (hw.fresh a b ha hle hb).imp_right (hparent b)

/-- A value of before. -/
theorem within_old {s : Sharing} (hpre : h <+: h₁) (hlive : Live h w)
    (hshared : ∀ a, Reach h w a → s.shared a) (hpart : ∀ a, Part h w a → s.part a) :
    Within h₁ s h₁ w where
  live := hlive.mono hpre
  old a ha _ := hshared a ((reach_prefix_iff hpre hlive).mp ha)
  part a ha _ := hpart a ((part_prefix_iff hpre hlive).mp ha)
  fresh _ _ ha hle _ := absurd ((hlive.mono hpre).part ha) (Nat.not_lt.mpr hle)

/-- A component that is old in the copy of the value. -/
theorem within_shared {s : Sharing} (hpre : h <+: h₁) (hgrows : h₁ <+: h₂) (hlive : Live h x)
    (hshared : ∀ b, Reach h x b → s.shared b) (hpart : ∀ b, Part h x b → s.part b) :
    Within h₁ s h₂ x :=
  (within_old hpre hlive hshared hpart).mono hgrows

/-- It is still a copy when the heap grows. -/
theorem CopyOf.mono {s : Sharing} {h₃ : Heap} (hc : CopyOf h₁ s v h₂ w) (hpre : h₂ <+: h₃) :
    CopyOf h₁ s v h₃ w where
  toWithin := hc.toWithin.mono hpre
  grows := hc.grows.trans hpre
  new a ha := (hc.new a ha).mono hpre
  set b hb := by
    obtain ⟨a, ha, hw, hin⟩ := hc.set b hb
    exact ⟨a, ha.mono hpre, by rw [written_of_grows hpre (hc.live.part ha), hw],
      hin.mono (hc.live.at ha) hpre⟩
  equal := hc.equal.mono hpre

/-- It may be seen from an earlier heap, in which the value was. -/
theorem CopyOf.earlier {s : Sharing} {h₀ : Heap} (hc : CopyOf h₁ s v h₂ w) (hpre : h₀ <+: h₁)
    (hparts : ∀ a, s.part a → a < h₀.length) : CopyOf h₀ s v h₂ w where
  live := hc.live
  old a ha hlt := hc.old a ha (Nat.lt_of_lt_of_le hlt hpre.length_le)
  part a ha hlt := hc.part a ha (Nat.lt_of_lt_of_le hlt hpre.length_le)
  fresh a b ha hle hb := by
    by_cases hlt : a < h₁.length
    · exact absurd (hparts a (hc.part a ha hlt)) (Nat.not_lt.mpr hle)
    · exact hc.fresh a b ha (Nat.not_lt.mp hlt) hb
  grows := hpre.trans hc.grows
  new := hc.new
  set := hc.set
  equal := hc.equal

theorem CopyOf.congr {s s' : Sharing} (hc : CopyOf h₁ s v h₂ w)
    (hshared : ∀ a, s.shared a ↔ s'.shared a) (hpart : ∀ a, s.part a ↔ s'.part a)
    (hparent : ∀ a, s.parent a ↔ s'.parent a) : CopyOf h₁ s' v h₂ w where
  toWithin := hc.toWithin.imp (fun a => (hshared a).mp) (fun a => (hpart a).mp)
    fun a => (hparent a).mp
  grows := hc.grows
  new a ha := hc.new a ((hshared a).mpr ha)
  set b hb := hc.set b ((hparent b).mpr hb)
  equal := hc.equal

/-- A new object, which has new components and shares with the value what they share. -/
theorem copyOf_alloc {s : Sharing} (hpre : h₁ <+: h₂)
    (hchildren : ∀ c ∈ o.children, Live h₂ c ∧ ∀ a, Reach h₂ c a → a < h₁.length → s.shared a)
    (helements : ∀ c ∈ o.elements, Within h₁ s h₂ c)
    (hself : ∀ b, o.written h₂.length = some b → b = h₂.length ∨ s.parent b)
    (hnew : ∀ a, s.shared a → ∃ c ∈ o.children, Reach h₂ c a)
    (hset : ∀ b, s.parent b →
      (o.written h₂.length = some b ∧ Inside (h₂.alloc o).1 (.ref h₂.length)) ∨
      ∃ c ∈ o.elements, ∃ a, Part h₂ c a ∧ h₂.written a = some b ∧ Inside h₂ (.ref a))
    (hequal : Equal (h₂.alloc o).1 v (.ref h₂.length)) :
    CopyOf h₁ s v (h₂.alloc o).1 (h₂.alloc o).2 := by
  have hlive : ∀ c ∈ o.children, Live h₂ c := fun c hc => (hchildren c hc).1
  have hwritten : (h₂.alloc o).1.written h₂.length = o.written h₂.length := by
    rw [Heap.written, alloc_get]
    rfl
  refine ⟨⟨live_alloc hlive, fun a ha hlt => ?_, fun a ha hlt => ?_, fun a b ha hle hb => ?_⟩,
    hpre.trans (alloc_grows h₂ o), fun a ha => (reach_alloc hlive).mpr (.inr (hnew a ha)),
    fun b hb => ?_, hequal⟩
  · rcases (reach_alloc hlive).mp ha with rfl | ⟨c, hc, hr⟩
    · exact absurd hpre.length_le (Nat.not_le_of_lt hlt)
    · exact (hchildren c hc).2 a hr hlt
  · rcases (part_alloc hlive).mp ha with rfl | ⟨c, hc, hr⟩
    · exact absurd hpre.length_le (Nat.not_le_of_lt hlt)
    · exact (helements c hc).part a hr hlt
  · rcases (part_alloc hlive).mp ha with rfl | ⟨c, hc, hr⟩
    · rw [hwritten] at hb
      exact hself b hb
    · rw [written_of_grows (alloc_grows h₂ o) ((helements c hc).live.part hr)] at hb
      exact (helements c hc).fresh a b hr hle hb
  · rcases hset b hb with ⟨hw, hin⟩ | ⟨c, hc, a, ha, hw, hin⟩
    · exact ⟨h₂.length, .here _, hwritten.trans hw, hin⟩
    · refine ⟨a, (part_alloc hlive).mpr (.inr ⟨c, hc, ha⟩), ?_,
        hin.mono ((helements c hc).live.at ha) (alloc_grows h₂ o)⟩
      rw [written_of_grows (alloc_grows h₂ o) ((helements c hc).live.part ha), hw]

/-! ## The copiers -/

theorem exists_pred_of_succ_le {m n : Nat} (hle : m + 1 ≤ n) : ∃ k, m ≤ k ∧ n = k + 1 :=
  ⟨n - 1, Nat.le_sub_one_of_lt hle, (Nat.sub_add_cancel (Nat.one_le_of_lt hle)).symm⟩

/-- A new spine shares the heads and the end of the list. -/
theorem copyPair_spec (hacc : Acc (Child h) v) (hlive : Live h v) :
    ∃ n, ∀ fuel, n ≤ fuel → ∀ h₁ : Heap, h <+: h₁ → ∃ h₂ w, copyPair fuel h₁ v = some (h₂, w) ∧
      CopyOf h₁ ⟨SpineShared h v, Part h v, fun _ => False⟩ v h₂ w := by
  induction hacc with
  | intro v _ ih =>
    cases hp : h.pairAt v with
    | none =>
      refine ⟨1, fun fuel hfuel h₁ hpre => ⟨h₁, v, ?_, ?_⟩⟩
      · obtain ⟨fuel, rfl⟩ := Nat.exists_eq_add_one_of_ne_zero (Nat.ne_of_gt hfuel)
        rw [copyPair, pairAt_grows hpre hlive, hp]
      · refine ⟨within_old hpre hlive (fun a ha => .last hp ha) (fun a ha => ha),
          List.prefix_refl h₁, fun a ha => ?_, fun b hb => hb.elim, .same v⟩
        cases ha with
        | last _ hr => exact hr.mono hpre
        | head hp' _ =>
          rw [hp] at hp'
          cases hp'
        | rest hp' _ =>
          rw [hp] at hp'
          cases hp'
    | some xt =>
      obtain ⟨x, t⟩ := xt
      obtain ⟨a, rfl, hget⟩ := (pairAt_eq_some h v x t).mp hp
      have hx : Live h x := hlive.child hget (List.mem_cons_self)
      have ht : Live h t := hlive.child hget (List.mem_cons_of_mem x List.mem_cons_self)
      have hchild : Child h t (.ref a) :=
        ⟨a, _, rfl, hget, List.mem_cons_of_mem x List.mem_cons_self⟩
      obtain ⟨n, hn⟩ := ih t hchild ht
      refine ⟨n + 1, fun fuel hfuel h₁ hpre => ?_⟩
      obtain ⟨fuel, hle, rfl⟩ := exists_pred_of_succ_le hfuel
      obtain ⟨h₂, u, hrun, hcopy⟩ := hn fuel hle h₁ hpre
      have hpre₂ := hpre.trans hcopy.grows
      refine ⟨(h₂.alloc (.pair x u)).1, (h₂.alloc (.pair x u)).2, ?_, ?_⟩
      · rw [copyPair, pairAt_grows hpre hlive, hp]
        dsimp only
        rw [hrun]
        rfl
      · have hhead : Within h₁ ⟨SpineShared h (.ref a), Part h (.ref a), fun _ => False⟩ h₂ x :=
          within_shared hpre hcopy.grows hx (fun b hb => .head hp hb)
            fun b hb => .child hget List.mem_cons_self hb
        have hrest : Within h₁ ⟨SpineShared h (.ref a), Part h (.ref a), fun _ => False⟩ h₂ u :=
          hcopy.toWithin.imp (fun b hb => .rest hp hb)
            (fun b hb => .child hget (List.mem_cons_of_mem x List.mem_cons_self) hb) fun _ hb => hb
        have helements : ∀ c ∈ (Obj.pair x u).elements,
            Within h₁ ⟨SpineShared h (.ref a), Part h (.ref a), fun _ => False⟩ h₂ c :=
          List.forall_mem_cons.mpr ⟨hhead, List.forall_mem_singleton.mpr hrest⟩
        refine copyOf_alloc hcopy.grows (fun c hc => ⟨(helements c hc).live, (helements c hc).old⟩)
          helements (fun b hb => .inl (Option.some.inj hb).symm) ?_ (fun b hb => hb.elim) ?_
        · intro b hb
          cases hb with
          | last hp' _ =>
            rw [hp] at hp'
            cases hp'
          | head hp' hr =>
            rw [hp] at hp'
            cases hp'
            exact ⟨x, List.mem_cons_self, hr.mono hpre₂⟩
          | rest hp' hr =>
            rw [hp] at hp'
            cases hp'
            exact ⟨u, List.mem_cons_of_mem x List.mem_cons_self, hcopy.new b hr⟩
        · have hgrow := alloc_grows h₂ (.pair x u)
          exact .pair (get_some_of_grows (hpre₂.trans hgrow) hget) (alloc_get h₂ _) (.same x)
            (hcopy.equal.mono hgrow)

/-- What the copy of a value has to do with it. -/
def sharing (h : Heap) (v : Val) : Sharing := ⟨Shared h v, Part h v, CopiedParent h v⟩

/-- With enough fuel the value is copied, in every heap that has grown since. -/
def Copies (h : Heap) (v : Val) : Prop :=
  ∃ n, ∀ fuel, n ≤ fuel → ∀ h₁ : Heap, h <+: h₁ → ∃ h₂ w, copy fuel h₁ v = some (h₂, w) ∧
    CopyOf h₁ (sharing h v) v h₂ w

/-- Values that can be copied are copied one after the other. -/
theorem copyList_spec {vs : List Val} (hlive : ∀ v ∈ vs, Live h v) (hvs : ∀ v ∈ vs, Copies h v) :
    ∃ n, ∀ fuel, n ≤ fuel → ∀ h₁ : Heap, h <+: h₁ → ∃ h₂ ws,
      copyList (copy fuel) h₁ vs = some (h₂, ws) ∧ h₁ <+: h₂ ∧
        List.Forall₂ (fun v w => CopyOf h₁ (sharing h v) v h₂ w) vs ws := by
  induction vs with
  | nil => exact ⟨0, fun fuel _ h₁ _ => ⟨h₁, [], rfl, List.prefix_refl h₁, .nil⟩⟩
  | cons v vs ih =>
    obtain ⟨m, hm⟩ := hvs v List.mem_cons_self
    have hlives := fun v hv => hlive v (List.mem_cons_of_mem _ hv)
    obtain ⟨n, hn⟩ := ih hlives fun v hv => hvs v (List.mem_cons_of_mem _ hv)
    refine ⟨max m n, fun fuel hfuel h₁ hpre => ?_⟩
    obtain ⟨h₂, w, hrun, hcopy⟩ := hm fuel (by omega) h₁ hpre
    obtain ⟨h₃, ws, hruns, hgrows, hcopies⟩ := hn fuel (by omega) h₂ (hpre.trans hcopy.grows)
    refine ⟨h₃, w :: ws, ?_, hcopy.grows.trans hgrows, .cons (hcopy.mono hgrows) ?_⟩
    · rw [copyList, hrun]
      change (copyList (copy fuel) h₂ vs >>= _) = _
      rw [hruns]
      rfl
    · rw [List.forall₂_iff_get] at hcopies ⊢
      refine ⟨hcopies.1, fun i hi hi' => (hcopies.2 i hi hi').earlier hcopy.grows fun a ha => ?_⟩
      exact Nat.lt_of_lt_of_le ((hlives _ (List.get_mem vs ⟨i, hi⟩)).part ha) hpre.length_le

theorem Inside.child (hin : Inside h (.ref a)) (ho : h[a]? = some o) {c : Val}
    (hc : c ∈ o.children) : Inside h c :=
  fun b hb => hin b (.child ho hc hb)

section Lists

variable {α β : Type} {R : α → β → Prop} {xs : List α} {ys : List β}

theorem exists_left_of_forall₂ (h : List.Forall₂ R xs ys) {y : β} (hy : y ∈ ys) :
    ∃ x ∈ xs, R x y := by
  induction h with
  | nil => cases hy
  | cons hr _ ih =>
    rcases List.mem_cons.mp hy with rfl | hy
    · exact ⟨_, List.mem_cons_self, hr⟩
    · obtain ⟨x, hx, hr⟩ := ih hy
      exact ⟨x, List.mem_cons_of_mem _ hx, hr⟩

theorem exists_right_of_forall₂ (h : List.Forall₂ R xs ys) {x : α} (hx : x ∈ xs) :
    ∃ y ∈ ys, R x y := by
  obtain ⟨y, hy, hr⟩ := exists_left_of_forall₂ h.flip hx
  exact ⟨y, hy, hr⟩

theorem forall₂_getElem? (h : List.Forall₂ R xs ys) {i : Nat} {x : α} {y : β}
    (hx : xs[i]? = some x) (hy : ys[i]? = some y) : R x y := by
  induction h generalizing i with
  | nil => cases hx
  | cons hr _ ih =>
    cases i with
    | zero =>
      cases hx
      cases hy
      exact hr
    | succ i => exact ih hx hy

theorem zip_fst_snd (es : List (α × β)) : (es.map Prod.fst).zip (es.map Prod.snd) = es := by
  induction es with
  | nil => rfl
  | cons e es ih => simp [ih]

end Lists

/-- What the copy of a value shares because of the object that the value is. -/
def Obj.Shares (h : Heap) (v : Val) (b : Nat) : Obj → Prop
  | .pair _ _ => SpineShared h v b
  | .array _ ae dv => Reach h dv b ∨ ∃ x ∈ ae, Shared h x b
  | .hash _ entries => (∃ k ∈ entries.map Prod.fst, Reach h k b) ∨
      ∃ x ∈ entries.map Prod.snd, Shared h x b
  -- these refer to their parent or to nothing
  | o => ∃ c ∈ o.children, Reach h c b

theorem shared_iff (ho : h[a]? = some o) : Shared h (.ref a) b ↔ o.Shares h (.ref a) b := by
  constructor
  · intro hs
    cases hs with
    | spine ho' hr =>
      rw [ho] at ho'
      cases ho'
      exact hr
    | parent ho' hlen hr =>
      rw [ho] at ho'
      cases ho'
      exact ⟨_, by rw [Obj.children, if_pos hlen]; exact List.mem_singleton_self _, hr⟩
    | dv ho' hr =>
      rw [ho] at ho'
      cases ho'
      exact .inl hr
    | element ho' hx hr =>
      rw [ho] at ho'
      cases ho'
      exact .inr ⟨_, hx, hr⟩
    | key ho' hk hr =>
      rw [ho] at ho'
      cases ho'
      exact .inl ⟨_, hk, hr⟩
    | value ho' hx hr =>
      rw [ho] at ho'
      cases ho'
      exact .inr ⟨_, hx, hr⟩
  · intro hs
    cases o with
    | pair x t => exact .spine ho hs
    | array const ae dv =>
      rcases hs with hr | ⟨x, hx, hr⟩
      · exact .dv ho hr
      · exact .element ho hx hr
    | hash const entries =>
      rcases hs with ⟨k, hk, hr⟩ | ⟨x, hx, hr⟩
      · exact .key ho hk hr
      · exact .value ho hx hr
    | substring const parent offset len =>
      obtain ⟨c, hc, hr⟩ := hs
      by_cases hlen : 0 < len
      · rw [Obj.children, if_pos hlen] at hc
        rw [List.mem_singleton.mp hc] at hr
        exact .parent ho hlen hr
      · rw [Obj.children, if_neg hlen] at hc
        cases hc
    | string const flags chars =>
      obtain ⟨c, hc, -⟩ := hs
      cases hc
    | bignum bn =>
      obtain ⟨c, hc, -⟩ := hs
      cases hc
    | bitset bits =>
      obtain ⟨c, hc, -⟩ := hs
      cases hc

/-- The parents of the substrings that are copied, by the object that the value is. -/
def Obj.CopiesParent (h : Heap) (b : Nat) : Obj → Prop
  | .substring _ parent _ len => 0 < len ∧ parent = b
  | .array _ ae _ => ∃ x ∈ ae, CopiedParent h x b
  | .hash _ entries => ∃ x ∈ entries.map Prod.snd, CopiedParent h x b
  | _ => False

theorem copiedParent_iff (ho : h[a]? = some o) :
    CopiedParent h (.ref a) b ↔ o.CopiesParent h b := by
  constructor
  · intro hc
    cases hc with
    | here ho' hlen =>
      rw [ho] at ho'
      cases ho'
      exact ⟨hlen, rfl⟩
    | element ho' hx hc =>
      rw [ho] at ho'
      cases ho'
      exact ⟨_, hx, hc⟩
    | value ho' hx hc =>
      rw [ho] at ho'
      cases ho'
      exact ⟨_, hx, hc⟩
  · intro hc
    cases o with
    | substring const parent offset len =>
      obtain ⟨hlen, rfl⟩ := hc
      exact .here ho hlen
    | array const ae dv =>
      obtain ⟨x, hx, hc⟩ := hc
      exact .element ho hx hc
    | hash const entries =>
      obtain ⟨x, hx, hc⟩ := hc
      exact .value ho hx hc
    | _ => exact hc.elim

/-- An object of which one is allocated with the same children, but that is not constant. -/
theorem copies_as_it_is (o' : Obj) (hlive : Live h (.ref a)) (ho : h[a]? = some o)
    (hcopy : ∀ fuel h₁, h₁[a]? = some o → copy (fuel + 1) h₁ (.ref a) = some (h₁.alloc o'))
    (hchildren : o'.children = o.children) (helements : o'.elements = [])
    (hself : ∀ n b, o'.written n = some b → b = n ∨ o.CopiesParent h b)
    (hset : ∀ b, o.CopiesParent h b → ∀ (h₁ : Heap) (n : Nat), h <+: h₁ → h₁[n]? = some o' →
      o'.written n = some b ∧ Inside h₁ (.ref n))
    (hshared : ∀ b, Shared h (.ref a) b ↔ ∃ c ∈ o.children, Reach h c b)
    (hequal : ∀ h₁ : Heap, h <+: h₁ → ∀ b, h₁[b]? = some o' → Equal h₁ (.ref a) (.ref b)) :
    Copies h (.ref a) := by
  refine ⟨1, fun fuel hfuel h₁ hpre => ⟨(h₁.alloc o').1, (h₁.alloc o').2, ?_,
    copyOf_alloc (List.prefix_refl h₁) ?_ ?_ ?_ ?_ ?_ ?_⟩⟩
  · obtain ⟨fuel, rfl⟩ := Nat.exists_eq_add_one_of_ne_zero (Nat.ne_of_gt hfuel)
    exact hcopy fuel h₁ (get_some_of_grows hpre ho)
  · intro c hc
    rw [hchildren] at hc
    refine ⟨(hlive.child ho hc).mono hpre, fun b hb _ => ?_⟩
    exact (hshared b).mpr ⟨c, hc, (reach_prefix_iff hpre (hlive.child ho hc)).mp hb⟩
  · intro c hc
    rw [helements] at hc
    cases hc
  · exact fun b hb => (hself _ b hb).imp_right (copiedParent_iff ho).mpr
  · intro b hb
    obtain ⟨c, hc, hr⟩ := (hshared b).mp hb
    exact ⟨c, hchildren ▸ hc, hr.mono hpre⟩
  · exact fun b hb => .inl (hset b ((copiedParent_iff ho).mp hb) _ _
      (hpre.trans (alloc_grows h₁ o')) (alloc_get h₁ o'))
  · exact hequal _ (hpre.trans (alloc_grows h₁ o')) _ (alloc_get h₁ o')

/-- The elements of an array are copied, the default value is shared. -/
theorem copyArray_spec {const : Bool} {ae : List Val} {dv : Val}
    (ho : h[a]? = some (.array const ae dv)) (hlive : Live h (.ref a))
    (hae : ∀ x ∈ ae, Copies h x) : Copies h (.ref a) := by
  have hlives : ∀ x ∈ ae, Live h x := fun x hx =>
    hlive.child ho (List.mem_cons_of_mem dv hx)
  have hdv : Live h dv := hlive.child ho List.mem_cons_self
  obtain ⟨n, hn⟩ := copyList_spec hlives hae
  refine ⟨n + 1, fun fuel hfuel h₁ hpre => ?_⟩
  obtain ⟨fuel, hle, rfl⟩ := exists_pred_of_succ_le hfuel
  obtain ⟨h₂, ws, hrun, hgrows, hcopies⟩ := hn fuel hle h₁ hpre
  have hpre₂ := hpre.trans hgrows
  have hgrow := alloc_grows h₂ (.array false ws dv)
  have hdvw : Within h₁ (sharing h (.ref a)) h₂ dv := within_shared hpre hgrows hdv
    (fun b hb => .dv ho hb) fun b hb => .child ho List.mem_cons_self hb
  have hws : ∀ w ∈ ws, Within h₁ (sharing h (.ref a)) h₂ w := by
    intro w hw
    obtain ⟨x, hx, hcopy⟩ := exists_left_of_forall₂ hcopies hw
    exact hcopy.toWithin.imp (fun b hb => .element ho hx hb)
      (fun b hb => .child ho (List.mem_cons_of_mem dv hx) hb) fun b hb => .element ho hx hb
  have helements : ∀ c ∈ (Obj.array false ws dv).elements,
      Within h₁ (sharing h (.ref a)) h₂ c := List.forall_mem_cons.mpr ⟨hdvw, hws⟩
  refine ⟨(h₂.alloc (.array false ws dv)).1, (h₂.alloc (.array false ws dv)).2, ?_,
    copyOf_alloc hgrows (fun c hc => ⟨(helements c hc).live, (helements c hc).old⟩) helements
      (fun b hb => .inl (Option.some.inj hb).symm) ?_ ?_ ?_⟩
  · rw [copy, get_some_of_grows hpre ho]
    dsimp only
    rw [hrun]
    rfl
  · intro b hb
    rcases (shared_iff ho).mp hb with hr | ⟨x, hx, hr⟩
    · exact ⟨dv, List.mem_cons_self, hr.mono hpre₂⟩
    · obtain ⟨w, hw, hcopy⟩ := exists_right_of_forall₂ hcopies hx
      exact ⟨w, List.mem_cons_of_mem dv hw, hcopy.new b hr⟩
  · intro b hb
    obtain ⟨x, hx, hb⟩ := (copiedParent_iff ho).mp hb
    obtain ⟨w, hw, hcopy⟩ := exists_right_of_forall₂ hcopies hx
    exact .inr ⟨w, List.mem_cons_of_mem dv hw, hcopy.set b hb⟩
  · exact .array (get_some_of_grows (hpre₂.trans hgrow) ho) (alloc_get h₂ _)
      hcopies.length_eq fun i x y hx hy => (forall₂_getElem? hcopies hx hy).equal.mono hgrow

/-- The values of a hash table are copied, the keys are shared. -/
theorem copyHash_spec {const : Bool} {entries : List (Val × Val)}
    (ho : h[a]? = some (.hash const entries)) (hlive : Live h (.ref a))
    (hvalues : ∀ x ∈ entries.map Prod.snd, Copies h x) : Copies h (.ref a) := by
  have hlives : ∀ x ∈ entries.map Prod.snd, Live h x := fun x hx =>
    hlive.child ho (List.mem_append_right _ hx)
  have hkeys : ∀ k ∈ entries.map Prod.fst, Live h k := fun k hk =>
    hlive.child ho (List.mem_append_left _ hk)
  obtain ⟨n, hn⟩ := copyList_spec hlives hvalues
  refine ⟨n + 1, fun fuel hfuel h₁ hpre => ?_⟩
  obtain ⟨fuel, hle, rfl⟩ := exists_pred_of_succ_le hfuel
  obtain ⟨h₂, ws, hrun, hgrows, hcopies⟩ := hn fuel hle h₁ hpre
  have hpre₂ := hpre.trans hgrows
  have hlen : (entries.map Prod.fst).length = ws.length := by
    rw [List.length_map, ← hcopies.length_eq, List.length_map]
  have helements : (Obj.hash false ((entries.map Prod.fst).zip ws)).elements =
      entries.map Prod.fst ++ ws := by
    rw [Obj.elements, List.map_fst_zip (Nat.le_of_eq hlen),
      List.map_snd_zip (Nat.le_of_eq hlen.symm)]
  have hwithin : ∀ c ∈ (Obj.hash false ((entries.map Prod.fst).zip ws)).elements,
      Within h₁ (sharing h (.ref a)) h₂ c := by
    intro c hc
    rw [helements, List.mem_append] at hc
    rcases hc with hc | hc
    · exact within_shared hpre hgrows (hkeys c hc) (fun b hb => .key ho hc hb)
        fun b hb => .child ho (List.mem_append_left _ hc) hb
    · obtain ⟨x, hx, hcopy⟩ := exists_left_of_forall₂ hcopies hc
      exact hcopy.toWithin.imp (fun b hb => .value ho hx hb)
        (fun b hb => .child ho (List.mem_append_right _ hx) hb) fun b hb => .value ho hx hb
  have hself : ∀ n b, (Obj.hash false ((entries.map Prod.fst).zip ws)).written n = some b →
      b = n := fun n b hb => (Option.some.inj hb).symm
  have hcs : (Obj.hash false ((entries.map Prod.fst).zip ws)).children =
      (Obj.hash false ((entries.map Prod.fst).zip ws)).elements := rfl
  generalize hnew : Obj.hash false ((entries.map Prod.fst).zip ws) = new
    at helements hwithin hself hcs
  refine ⟨(h₂.alloc new).1, (h₂.alloc new).2, ?_, copyOf_alloc hgrows
    (fun c hc => ⟨(hwithin c (hcs ▸ hc)).live, (hwithin c (hcs ▸ hc)).old⟩) hwithin
    (fun b hb => .inl (hself _ b hb)) ?_ ?_ ?_⟩
  · rw [copy, get_some_of_grows hpre ho]
    dsimp only
    rw [hrun, ← hnew]
    rfl
  · intro b hb
    rw [hcs, helements]
    rcases (shared_iff ho).mp hb with ⟨k, hk, hr⟩ | ⟨x, hx, hr⟩
    · exact ⟨k, List.mem_append_left _ hk, hr.mono hpre₂⟩
    · obtain ⟨w, hw, hcopy⟩ := exists_right_of_forall₂ hcopies hx
      exact ⟨w, List.mem_append_right _ hw, hcopy.new b hr⟩
  · intro b hb
    rw [helements]
    obtain ⟨x, hx, hb⟩ := (copiedParent_iff ho).mp hb
    obtain ⟨w, hw, hcopy⟩ := exists_right_of_forall₂ hcopies hx
    exact .inr ⟨w, List.mem_append_right _ hw, hcopy.set b hb⟩
  · have hold := get_some_of_grows (hpre₂.trans (alloc_grows h₂ new)) ho
    rw [← zip_fst_snd entries] at hold
    have hget := alloc_get h₂ new
    rw [← hnew] at hget hold ⊢
    exact .hash hold hget (by simp) hlen fun i x y hx hy =>
      (forall₂_getElem? hcopies hx hy).equal.mono (alloc_grows h₂ _)

/-- Every value is copied, by induction on its components. -/
theorem copy_spec (hacc : Acc (Child h) v) (hlive : Live h v) (hin : Inside h v) : Copies h v := by
  induction hacc with
  | intro v hcomponents ih =>
    have hacc : Acc (Child h) v := .intro v hcomponents
    cases v with
    | atom n =>
      refine ⟨1, fun fuel hfuel h₁ hpre => ⟨h₁, .atom n, ?_, ?_⟩⟩
      · obtain ⟨fuel, rfl⟩ := Nat.exists_eq_add_one_of_ne_zero (Nat.ne_of_gt hfuel)
        rfl
      · have hno : ∀ {next : Obj → List Val} {b : Nat}, ¬ Via next h (.atom n) b := by
          rintro next b ⟨⟩
        refine ⟨within_old hpre hlive (fun a ha => absurd ha hno) (fun a ha => absurd ha hno),
          List.prefix_refl h₁, fun a ha => ?_, fun b hb => ?_, .same _⟩
        · cases ha
        · cases hb
    | ref a =>
      obtain ⟨o, ho⟩ : ∃ o, h[a]? = some o :=
        ⟨_, List.getElem?_eq_getElem (hlive a (.here a))⟩
      have hchild : ∀ c ∈ o.children, Copies h c := fun c hc =>
        ih c ⟨a, o, rfl, ho, hc⟩ (hlive.child ho hc) (hin.child ho hc)
      cases o with
      | string const flags chars =>
        refine copies_as_it_is (.string false flags chars) hlive ho (fun fuel h₁ hget => ?_)
          rfl rfl (fun n b hb => ?_) (fun b hb => hb.elim) (fun b => shared_iff ho)
          fun h₁ hpre b hb => ?_
        · rw [copy, hget]
        · rw [Obj.written] at hb
          split at hb
          · cases hb
          · exact .inl (Option.some.inj hb).symm
        · exact .text (s := (flags, chars)) (by rw [Heap.text, get_some_of_grows hpre ho])
            (by rw [Heap.text, hb])
      | substring const parent offset len =>
        obtain ⟨constp, flags, chars, hparent, hle⟩ := hin a (.here a) const parent offset len ho
        refine copies_as_it_is (.substring false parent offset len) hlive ho
          (fun fuel h₁ hget => ?_) rfl rfl (fun n b hb => ?_) (fun b hb h₁ n hpre hget => ?_)
          (fun b => shared_iff ho) fun h₁ hpre b hb => ?_
        · rw [copy, hget]
        · rw [Obj.written] at hb
          split at hb
          · cases hb
          · rename_i hlen
            exact .inr ⟨Nat.pos_of_ne_zero fun h0 => hlen (.inr h0), Option.some.inj hb⟩
        · obtain ⟨hlen, rfl⟩ := hb
          refine ⟨if_neg (by simp [Nat.ne_of_gt hlen]), ?_⟩
          exact inside_substring hget (get_some_of_grows hpre hparent) hle
        · have hparent₁ := get_some_of_grows hpre hparent
          exact .text (s := (flags, (chars.drop offset).take len))
            (by rw [Heap.text, get_some_of_grows hpre ho]; dsimp only; rw [hparent₁])
            (by rw [Heap.text, hb]; dsimp only; rw [hparent₁])
      | bignum bn =>
        refine copies_as_it_is (.bignum bn) hlive ho (fun fuel h₁ hget => ?_) rfl rfl
          (fun n b hb => ?_) (fun b hb => hb.elim) (fun b => shared_iff ho)
          fun h₁ hpre b hb => ?_
        · rw [copy, hget]
        · cases hb
        · exact .bignum (get_some_of_grows hpre ho) hb
      | bitset bits =>
        refine copies_as_it_is (.bitset bits) hlive ho (fun fuel h₁ hget => ?_) rfl rfl
          (fun n b hb => ?_) (fun b hb => hb.elim) (fun b => shared_iff ho)
          fun h₁ hpre b hb => ?_
        · rw [copy, hget]
        · rw [Obj.written] at hb
          split at hb
          · cases hb
          · exact .inl (Option.some.inj hb).symm
        · exact .bitset (get_some_of_grows hpre ho) hb
      | pair x t =>
        obtain ⟨n, hn⟩ := copyPair_spec hacc hlive
        refine ⟨n + 1, fun fuel hfuel h₁ hpre => ?_⟩
        obtain ⟨fuel, hle, rfl⟩ := exists_pred_of_succ_le hfuel
        obtain ⟨h₂, w, hrun, hcopy⟩ := hn fuel hle h₁ hpre
        refine ⟨h₂, w, ?_, hcopy.congr (fun b => (shared_iff ho).symm) (fun _ => Iff.rfl)
          fun b => (copiedParent_iff ho).symm⟩
        rw [copy, get_some_of_grows hpre ho]
        exact hrun
      | array const ae dv =>
        exact copyArray_spec ho hlive fun x hx => hchild x (List.mem_cons_of_mem dv hx)
      | hash const entries =>
        exact copyHash_spec ho hlive fun x hx => hchild x (List.mem_append_right _ hx)

/-! ## Mutations of what is shared and of what is not -/

/-- The value depends on the parents of its substrings. -/
theorem reach_parent {parent offset len : Nat} {const : Bool}
    (ho : h[a]? = some (.substring const parent offset len)) (hlen : 0 < len) :
    Reach h (.ref a) parent := by
  refine .child ho ?_ (.here parent)
  rw [Obj.children, if_pos hlen]
  exact List.mem_singleton_self _

theorem CopiedParent.reach (hc : CopiedParent h v b) : Reach h v b := by
  induction hc with
  | here ho hlen => exact reach_parent ho hlen
  | element ho hx _ ih => exact .child ho (List.mem_cons_of_mem _ hx) ih
  | value ho hx _ ih => exact .child ho (List.mem_append_right _ hx) ih

/-- What a part is written in is the part or, if that is a substring, its parent. -/
theorem written_cases (hw : h.written a = some b) :
    b = a ∨ ∃ parent offset len, h[a]? = some (.substring false parent offset len) ∧ 0 < len ∧
      b = parent := by
  obtain ⟨o, ho, hw⟩ := Option.bind_eq_some_iff.mp hw
  cases o with
  | substring const parent offset len =>
    rw [Obj.written] at hw
    split at hw
    · cases hw
    · rename_i hset
      rw [not_or, Bool.not_eq_true] at hset
      obtain ⟨rfl, hlen⟩ := hset
      exact .inr ⟨parent, offset, len, ho, Nat.pos_of_ne_zero hlen, (Option.some.inj hw).symm⟩
  | pair x t => exact .inl (Option.some.inj hw).symm
  | bignum bn => cases hw
  | _ =>
    rw [Obj.written] at hw
    split at hw
    · cases hw
    · exact .inl (Option.some.inj hw).symm

theorem reach_written (hr : Reach h v a) (hw : h.written a = some b) : Reach h v b := by
  rcases written_cases hw with rfl | ⟨parent, offset, len, ho, hlen, rfl⟩
  · exact hr
  · exact hr.trans (reach_parent ho hlen)

/-- A mutation puts another object where the object is written, of which the same can be set. -/
theorem Mutates.changes (hm : Mutates h a h₁) :
    ∃ b o o', h.written a = some b ∧ h[b]? = some o ∧ h₁ = h.set b o' ∧
      ∀ c, o'.written c = o.written c := by
  -- an object that is written in place
  have here : ∀ o o' : Obj, h[a]? = some o → h₁ = h.set a o' → o.written a = some a →
      (∀ c, o'.written c = o.written c) →
      ∃ b o o', h.written a = some b ∧ h[b]? = some o ∧ h₁ = h.set b o' ∧
        ∀ c, o'.written c = o.written c := by
    intro o o' ho hset hw hsame
    refine ⟨a, o, o', ?_, ho, hset, hsame⟩
    rw [Heap.written, ho]
    exact hw
  cases hm with
  | setPh v ho => exact here _ _ ho rfl rfl fun _ => rfl
  | setPt v ho => exact here _ _ ho rfl rfl fun _ => rfl
  | arraySet i v ho _ => exact here _ _ ho rfl rfl fun _ => rfl
  | arrayAppend v ho => exact here _ _ ho rfl rfl fun _ => rfl
  | hashReplace v ho _ => exact here _ _ ho rfl rfl fun _ => rfl
  | hashAdd v ho _ => exact here _ _ ho rfl rfl fun _ => rfl
  | hashDelete ho _ => exact here _ _ ho rfl rfl fun _ => rfl
  | @stringSet flags chars i c ho hi _ =>
    have hne : chars ≠ [] := List.ne_nil_of_length_pos (Nat.zero_lt_of_lt hi)
    exact here _ _ ho rfl (by simp [Obj.written, hne]) fun _ => by simp [Obj.written]
  | @substringSet parent offset len const flags chars i c ho hi hparent _ _ =>
    refine ⟨parent, _, _, ?_, hparent, rfl, fun _ => by simp [Obj.written]⟩
    rw [Heap.written, ho]
    exact if_neg (by simp [Nat.ne_of_gt (Nat.zero_lt_of_lt hi)])
  | @bitsetSet bits i b ho hi =>
    have hne : bits ≠ [] := List.ne_nil_of_length_pos (Nat.zero_lt_of_lt hi)
    exact here _ _ ho rfl (by simp [Obj.written, hne]) fun _ => by simp [Obj.written]

/-- Mutations of some parts leave all alone where none of them is written, and what can be set
stays the same. -/
theorem Run.frame {parts : Nat → Prop} {h' : Heap} (hrun : Run parts h h') :
    (∀ b, (∀ a, parts a → h.written a ≠ some b) → h'[b]? = h[b]?) ∧
      ∀ a, h'.written a = h.written a := by
  induction hrun with
  | start => exact ⟨fun _ _ => rfl, fun _ => rfl⟩
  | @step h₁ h₂ a _ ha hm ih =>
    obtain ⟨hsame, hwritten⟩ := ih
    obtain ⟨b, o, o', hw, hget, rfl, ho'⟩ := hm.changes
    have hlt := (List.getElem?_eq_some_iff.mp hget).1
    constructor
    · intro c hc
      have hne : b ≠ c := by
        rintro rfl
        exact hc a ha ((hwritten a).symm.trans hw)
      rw [List.getElem?_set_ne hne]
      exact hsame c hc
    · intro c
      rw [← hwritten c]
      by_cases heq : b = c
      · subst heq
        rw [Heap.written, List.getElem?_set_self hlt, Heap.written, hget]
        exact ho' b
      · rw [Heap.written, List.getElem?_set_ne heq, Heap.written]

/-- Another value. -/
def Val.other (v : Val) : Val := if v = .atom 0 then .atom 1 else .atom 0

theorem Val.other_ne (v : Val) : v.other ≠ v := by
  rw [Val.other]
  split
  · rename_i hv
    rw [hv]
    decide
  · rename_i hv
    exact fun hc => hv hc.symm

/-- Another code point, `a` or `b`. -/
def otherChar (c : Nat) : Nat := if c = 97 then 98 else 97

theorem otherChar_ne (c : Nat) : otherChar c ≠ c := by
  rw [otherChar]
  split <;> omega

theorem otherChar_fits (c : Nat) (flags : StringFlags) :
    charWidth (otherChar c) ≤ storageSize flags := by
  have hone : charWidth (otherChar c) = 1 := by
    rw [otherChar]
    split <;> rfl
  rw [hone]
  cases flags <;> decide

theorem set_ne {chars : List Nat} {i c : Nat} (hi : i < chars.length) (hc : c ≠ chars[i]) :
    chars.set i c ≠ chars := by
  intro heq
  have hget : (chars.set i c)[i]? = chars[i]? := by rw [heq]
  rw [List.getElem?_set_self hi, List.getElem?_eq_getElem hi] at hget
  exact hc (Option.some.inj hget)

/-- What can be set is changed by some mutation. -/
theorem exists_mutates (hw : h.written a = some b) (hin : Inside h (.ref a)) :
    ∃ h₁, Mutates h a h₁ ∧ h₁[b]? ≠ h[b]? := by
  -- another object at the address itself
  have here : ∀ o o' : Obj, h[a]? = some o → b = a → Mutates h a (h.set a o') → o' ≠ o →
      ∃ h₁, Mutates h a h₁ ∧ h₁[b]? ≠ h[b]? := by
    rintro o o' ho rfl hm hne
    refine ⟨_, hm, ?_⟩
    rw [List.getElem?_set_self (List.getElem?_eq_some_iff.mp ho).1, ho]
    exact fun heq => hne (Option.some.inj heq)
  obtain ⟨o, ho, hw⟩ := Option.bind_eq_some_iff.mp hw
  cases o with
  | string const flags chars =>
    rw [Obj.written] at hw
    split at hw
    · cases hw
    · rename_i hset
      rw [not_or, Bool.not_eq_true] at hset
      obtain ⟨rfl, hne⟩ := hset
      have hpos : 0 < chars.length := List.length_pos_of_ne_nil hne
      refine here _ _ ho (Option.some.inj hw).symm
        (.stringSet 0 (otherChar chars[0]) ho hpos (otherChar_fits _ _)) ?_
      intro heq
      injection heq with _ _ heq
      exact set_ne hpos (otherChar_ne _) heq
  | substring const parent offset len =>
    rw [Obj.written] at hw
    split at hw
    · cases hw
    · rename_i hset
      rw [not_or, Bool.not_eq_true] at hset
      obtain ⟨rfl, hlen⟩ := hset
      cases Option.some.inj hw
      obtain ⟨const, flags, chars, hparent, hle⟩ := hin a (.here a) _ _ _ _ ho
      have hi : offset + 0 < chars.length := by omega
      refine ⟨_, .substringSet 0 (otherChar chars[offset + 0]) ho (Nat.pos_of_ne_zero hlen) hparent
        hi (otherChar_fits _ _), ?_⟩
      rw [List.getElem?_set_self (List.getElem?_eq_some_iff.mp hparent).1, hparent]
      intro heq
      injection heq with heq
      injection heq with _ _ heq
      exact set_ne hi (otherChar_ne _) heq
  | pair x t =>
    refine here _ _ ho (Option.some.inj hw).symm (.setPh x.other ho) fun heq => ?_
    injection heq with heq _
    exact x.other_ne heq
  | array const ae dv =>
    cases const with
    | true => cases hw
    | false =>
      refine here _ _ ho (Option.some.inj hw).symm (.arrayAppend dv ho) fun heq => ?_
      injection heq with _ heq _
      exact absurd (congrArg List.length heq) (by simp)
  | bignum bn => cases hw
  | bitset bits =>
    cases bits with
    | nil => cases hw
    | cons x bs =>
      refine here _ _ ho (Option.some.inj hw).symm (.bitsetSet 0 (!x) ho (Nat.succ_pos _))
        fun heq => ?_
      injection heq with heq
      cases x <;> cases heq
  | hash const entries =>
    cases const with
    | true => cases hw
    | false =>
      cases entries with
      | nil =>
        refine here _ _ ho (Option.some.inj hw).symm
          (.hashAdd (k := .atom 0) (.atom 0) ho (by simp)) fun heq => ?_
        injection heq with _ heq
        cases heq
      | cons e es =>
        obtain ⟨k, x⟩ := e
        refine here _ _ ho (Option.some.inj hw).symm
          (.hashDelete (l := []) (r := es) (k := k) ho (.same k)) fun heq => ?_
        injection heq with _ heq
        exact absurd (congrArg List.length heq) (by simp)

/-- A part of one of two values that are separate is not written where the other reaches. -/
theorem not_written_of_frame {parts : Nat → Prop} {others : Nat → Prop}
    (hsep : ∀ h', Run parts h h' → ∀ b, others b → h'[b]? = h[b]?) (ha : parts a)
    (hw : h.written a = some b) (hin : Inside h (.ref a)) : ¬ others b := by
  intro hb
  obtain ⟨h₁, hm, hne⟩ := exists_mutates hw hin
  exact hne (hsep h₁ (.step .start ha hm) b hb)

/-- A deep copy is made, and it is equal to the value; it is separate from it if and only if no
substring is copied and no part of the value can be set where the copy shares it. -/
theorem copy_separate (d : Data) :
    ∃ n, ∀ fuel, n ≤ fuel → ∃ h w, copy fuel d.heap d.value = some (h, w) ∧
      ((Equal h d.value w ∧ Separate h d.value w) ↔ d.Unshared) := by
  obtain ⟨n, hn⟩ := copy_spec d.acyclic d.live d.inside
  refine ⟨n, fun fuel hfuel => ?_⟩
  obtain ⟨h, w, hrun, hcopy⟩ := hn fuel hfuel d.heap (List.prefix_refl d.heap)
  have hgrows := hcopy.grows
  refine ⟨h, w, hrun, fun ⟨_, hsep⟩ => ⟨fun b hb => ?_, fun a b ha hw hshared => ?_⟩,
    fun ⟨hparents, hunshared⟩ => ⟨hcopy.equal, fun h' hrun' b hb => ?_, fun h' hrun' b hb => ?_⟩⟩
  · -- the copy of the substring is set
    obtain ⟨a, ha, hw, hin⟩ := hcopy.set b hb
    exact not_written_of_frame hsep.1 ha hw hin (hb.reach.mono hgrows)
  · -- the part of the value is set
    have hin : Inside h (.ref a) := (d.inside.mono d.live hgrows).at (ha.mono hgrows)
    rw [← written_of_grows hgrows (d.live.part ha)] at hw
    exact not_written_of_frame hsep.2 (ha.mono hgrows) hw hin (hcopy.new b hshared)
  · refine hrun'.frame.1 b fun a ha hw => ?_
    have hb₀ := (reach_prefix_iff hgrows d.live).mp hb
    have hblt := d.live b hb₀
    by_cases hlt : a < d.heap.length
    · have hshared := hcopy.old b (reach_written (ha.reach elements_subset) hw) hblt
      rw [written_of_grows hgrows hlt] at hw
      exact hunshared a b (hcopy.part a ha hlt) hw hshared
    · rcases hcopy.fresh a b ha (Nat.not_lt.mp hlt) hw with rfl | hparent
      · exact hlt hblt
      · exact hparents b hparent
  · refine hrun'.frame.1 b fun a ha hw => ?_
    have ha := (part_prefix_iff hgrows d.live).mp ha
    rw [written_of_grows hgrows (d.live.part ha)] at hw
    have hblt := d.live b (reach_written (ha.reach elements_subset) hw)
    exact hunshared a b ha hw (hcopy.old b hb hblt)

end Heaps

/-- The list of one string. -/
def listOfString : Heap := [.string false .oneByte [97], .pair (.ref 0) (.atom 0)]

theorem reach_string {a : Nat} (hr : Reach listOfString (.ref 0) a) : a = 0 := by
  cases hr with
  | here => rfl
  | child ho hc _ =>
    cases ho
    cases hc

theorem reach_listOfString {a : Nat} (hr : Reach listOfString (.ref 1) a) : a = 1 ∨ a = 0 := by
  cases hr with
  | here => exact .inl rfl
  | child ho hc hr =>
    cases ho
    rcases List.mem_cons.mp hc with rfl | hc
    · exact .inr (reach_string hr)
    · rw [List.mem_singleton.mp hc] at hr
      cases hr

/-- The list, as data. -/
def stringData : Data where
  heap := listOfString
  value := .ref 1
  live := by
    intro a ha
    rcases reach_listOfString ha with rfl | rfl <;> decide
  inside := by
    intro a ha const parent offset len hget
    rcases reach_listOfString ha with rfl | rfl <;> cases hget
  acyclic := by
    refine .intro _ ?_
    rintro c ⟨a, o, ha, ho, hc⟩
    cases ha
    cases ho
    rcases List.mem_cons.mp hc with rfl | hc
    · refine .intro _ ?_
      rintro c ⟨a, o, ha, ho, hc⟩
      cases ha
      cases ho
      cases hc
    · rw [List.mem_singleton.mp hc]
      refine .intro _ ?_
      rintro c ⟨a, o, ha, -, -⟩
      cases ha

/-- The string of the list is in the copy as well: `string-set!` there changes the original. -/
theorem copied_list_shares :
    ∃ h w h', copy 3 stringData.heap stringData.value = some (h, w) ∧
      h.pairAt w = some (.ref 0, .atom 0) ∧ Mutates h 0 h' ∧
      h.text 0 = some (.oneByte, [97]) ∧ h'.text 0 = some (.oneByte, [98]) ∧
      ¬ Separate h stringData.value w := by
  have hget : (listOfString ++ [.pair (.ref 0) (.atom 0)])[0]? =
      some (.string false .oneByte [97]) := rfl
  have hm := Mutates.stringSet 0 98 hget (by decide) (by decide)
  refine ⟨_, _, _, rfl, rfl, hm, rfl, rfl, fun hsep => ?_⟩
  have hin : Part (listOfString ++ [.pair (.ref 0) (.atom 0)]) (.ref 2) 0 :=
    .child rfl List.mem_cons_self (.here 0)
  have hold : Reach (listOfString ++ [.pair (.ref 0) (.atom 0)]) (.ref 1) 0 :=
    .child rfl List.mem_cons_self (.here 0)
  exact absurd (hsep.1 _ (.step .start hin hm) 0 hold) (by simp [stringData, listOfString])

end Idio.Copying
