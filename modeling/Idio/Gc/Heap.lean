/-
  Gc/Heap.lean --- the objects of the collector, its lists and what it does with them.

  An object has a type, the fields of its type, a colour and a few flags.  The collector knows
  the objects in use, the free ones and the weak hash tables, which it takes off the list of
  those in use, and it keeps them on lists through their `next` fields.  The objects that are
  light grey are on a list of their own, through the `grey` fields of the objects.

  What an object's type decides is said twice in the collector: which types go on the grey list
  (`idio_gc_gcc_mark`) and which fields are followed (`idio_gc_process_grey`).  Both are here as
  they stand.
-/
import Mathlib.Data.List.Basic

set_option autoImplicit false

namespace Idio.Collector

/-! ## Objects -/

/-- Where an object is. -/
abbrev Addr : Type := Nat

/-- An `IDIO`: its two low bits tell a pointer from what is no object. -/
inductive Ref where
  | fixnum (i : Int)
  | constant (c : Nat)
  | placeholder (n : Nat)
  | pointer (a : Addr)
  deriving DecidableEq, Repr

/-- `idio_S_nil`. -/
def Ref.nil : Ref := .constant 0

/-- `idio_hash_entry_t`. -/
structure Entry where
  key : Ref
  value : Ref
  deriving DecidableEq, Repr

/-- The type of an object and the fields that the collector looks at.  `leaf` is any type that
has no case of its own in `idio_gc_gcc_mark`: strings, symbols, bignums, C values. -/
inductive Value where
  | none
  | leaf
  | cPointer (ptype : Ref)
  | substring (parent : Ref)
  | pair (h t : Ref)
  | array (dv : Ref) (ae : List (Option Ref))
  | hash (stringKeys : Bool) (ha : List (List Entry)) (count : Nat) (comp hash : Ref)
  | closure (frame env : Ref)
  | primitive
  | module (name exports imports symbols identity : Ref)
  | frame (next names : Ref) (args : List Ref)
  | handle (filename pathname : Ref)
  | structType (name parent : Ref) (fields : List Ref)
  | structInstance (type : Ref) (fields : List Ref)
  | thread (stack val frame env func reg1 reg2 expr : Ref)
      (inputHandle outputHandle errorHandle module holes : Ref)
  | continuation (stack frame env module holes thr : Ref)
  deriving DecidableEq, Repr

/-- `idio_gc_flag_gcc_enum`. -/
inductive Colour where
  | black | lgrey | white
  deriving DecidableEq, Repr

/-- `idio_t`. -/
structure Object where
  value : Value := .none
  colour : Colour := .white
  free : Bool := false
  sticky : Bool := false
  finalizer : Bool := false
  grey : Option Addr := .none
  deriving DecidableEq, Repr

/-- `idio_gc_t`, with the memory that its objects are in, `idio_gc_finalizer_hash`, and the
objects whose finalizers have been run, the last first. -/
structure Gc where
  objects : List Object := []
  used : List Addr := []
  free : List Addr := []
  weak : List Addr := []
  roots : List Ref := []
  autos : List Ref := []
  grey : Option Addr := .none
  pause : Int := 0
  request : Bool := false
  nfree : Nat := 0
  igets : Nat := 0
  finalizerHash : Option Addr := .none
  ran : List Addr := []
  deriving DecidableEq, Repr

/-- What is at an address. -/
def Gc.at (g : Gc) (a : Addr) : Object := g.objects.getD a {}

/-- The collector with the object at `a` changed. -/
def Gc.alter (g : Gc) (a : Addr) (f : Object → Object) : Gc :=
  { g with objects := g.objects.set a (f (g.at a)) }

/-- The collector with the object at `a` in another colour. -/
def Gc.paint (g : Gc) (a : Addr) (c : Colour) : Gc := g.alter a ({ · with colour := c })

/-- The collector with a grey list that begins elsewhere. -/
def Gc.setGrey (g : Gc) (o : Option Addr) : Gc := { g with grey := o }

/-- The collector with the object at `a` put on the grey list. -/
def Gc.push (g : Gc) (a : Addr) : Gc :=
  (g.alter a ({ · with colour := .lgrey, grey := g.grey })).setGrey (some a)

/-- Is there no object? -/
def Value.isNone : Value → Bool
  | .none => true
  | _ => false

/-- Is it a hash table? -/
def Value.isHash : Value → Bool
  | .hash .. => true
  | _ => false

/-- The entries of a hash table, chain after chain. -/
def Value.entries : Value → List Entry
  | .hash _ ha _ _ _ => ha.flatten
  | _ => []

/-! ## Marking -/

/-- What `idio_gc_gcc_mark` does with a white object: the parent of a substring is marked at
once, and an object of a compound type goes on the grey list. -/
inductive Shading where
  | follow (parent : Ref)
  | grey
  | black
  deriving DecidableEq, Repr

/-- The switch of `idio_gc_gcc_mark`. -/
def Value.shading : Value → Shading
  | .substring parent => .follow parent
  | .pair .. => .grey
  | .array .. => .grey
  | .hash .. => .grey
  | .closure .. => .grey
  | .primitive => .grey
  | .module .. => .grey
  | .frame .. => .grey
  | .handle .. => .grey
  | .structType .. => .grey
  | .structInstance .. => .grey
  | .thread .. => .grey
  | .continuation .. => .grey
  | _ => .black

/-- `idio_gc_gcc_mark` to black, to a depth of `n` objects. -/
def Gc.gccMark : Nat → Gc → Ref → Option Gc
  | _, g, .fixnum _ => some g
  | _, g, .constant _ => some g
  | _, g, .placeholder _ => some g
  | 0, _, .pointer _ => none
  | n + 1, g, .pointer o =>
    if (g.at o).value.isNone then some g
    else match (g.at o).colour with
      | .black => some g
      | .lgrey => some g
      | .white =>
        match (g.at o).value.shading with
        | .follow parent => Gc.gccMark n (g.paint o .black) parent
        | .grey => some (g.push o)
        | .black => some (g.paint o .black)

/-- `idio_gc_gcc_mark` on one after another. -/
def Gc.gccMarkAll (n : Nat) (g : Gc) (os : List Ref) : Option Gc := os.foldlM (Gc.gccMark n) g

/-- What `idio_gc_process_grey` does with the first of the grey list: whether it takes it off the
list, and the fields that it marks. -/
inductive Scan where
  | pop (fields : List Ref)
  | stay (fields : List Ref)
  | unexpected
  deriving DecidableEq, Repr

/-- What is marked for an entry of a hash table. -/
def Entry.fields (stringKeys : Bool) (he : Entry) : List Ref :=
  (if !stringKeys && he.key != .nil then [he.key] else []) ++
    (if he.value != .nil then [he.value] else [])

/-- The switch of `idio_gc_process_grey`. -/
def Value.scan : Value → Scan
  | .pair h t => .pop [h, t]
  | .array dv ae => .pop (dv :: ae.filterMap id)
  | .hash sk ha _ comp fn => .pop (ha.flatten.flatMap (Entry.fields sk) ++ [comp, fn])
  | .closure fr env => .pop [fr, env]
  | .primitive => .pop []
  | .module name exports imports symbols identity =>
    .pop [name, exports, imports, symbols, identity]
  | .frame next names args => .pop (next :: names :: args)
  | .handle filename pathname => .pop [filename, pathname]
  | .structType name parent fs => .pop (name :: parent :: fs)
  | .structInstance type fs => .pop (type :: fs)
  | .thread stack val fr env func reg1 reg2 expr ih oh eh mod holes =>
    .pop [stack, val, fr, env, func, reg1, reg2, expr, ih, oh, eh, mod, holes]
  | .continuation stack fr env mod holes thr => .pop [stack, fr, env, mod, holes, thr]
  | .cPointer ptype => .stay [ptype]
  | _ => .unexpected

/-- The fields of an object that marking follows. -/
def Value.fields (v : Value) : List Ref :=
  match v.shading, v.scan with
  | .follow parent, _ => [parent]
  | .grey, .pop fields => fields
  | _, _ => []

/-- `idio_gc_process_grey` to black. -/
def Gc.processGrey (n : Nat) (g : Gc) : Option Gc :=
  match g.grey with
  | none => some g
  | some o =>
    match (g.at o).value.scan with
    | .pop fields => Gc.gccMarkAll n ((g.paint o .black).setGrey (g.at o).grey) fields
    | .stay fields => Gc.gccMarkAll n (g.paint o .black) fields
    | .unexpected => none

/-- `while (NULL != gc->grey) idio_gc_process_grey (...)`, at most as often as the first number
says. -/
def Gc.drain : Nat → Nat → Gc → Option Gc
  | 0, _, g => if g.grey = none then some g else none
  | m + 1, n, g => if g.grey = none then some g else g.processGrey n >>= Gc.drain m n

/-! ## Weak hash tables -/

/-- The collector once the finalizer of the object at `o` has been run. -/
def Gc.finalized (g : Gc) (o : Addr) : Gc :=
  { g.alter o ({ · with finalizer := false }) with ran := o :: g.ran }

/-- `idio_gc_finalizer_run`. -/
def Gc.finalizerRun (g : Gc) (o : Addr) : Option Gc :=
  match g.finalizerHash with
  | none => some g
  | some h =>
    if (g.at h).value.entries.any (·.key = .pointer o) then some (g.finalized o) else none

/-- The first pass of `idio_gc_mark_weak` at an entry, with `modified`. -/
def Gc.markEntry (n : Nat) (s : Gc × Nat) (he : Entry) : Option (Gc × Nat) :=
  match he.key with
  | .pointer k =>
    if (s.1.at k).colour = .black then
      (s.1.gccMark n he.value).map fun g => (g, s.2 + 1)
    else some s
  | _ => some s

/-- The first pass of `idio_gc_mark_weak` at a table. -/
def Gc.markTable (n : Nat) (s : Gc × Nat) (o : Addr) : Option (Gc × Nat) :=
  match (s.1.at o).value with
  | .hash _ ha _ _ _ => ha.flatten.foldlM (Gc.markEntry n) s
  | _ => none

/-- The first pass of `idio_gc_mark_weak`, from where it is in the list of weak tables: at the
end of the list it stays there, however often it is repeated. -/
def Gc.passOne : Nat → Nat → Gc → List Addr → Option Gc
  | 0, _, _, _ => none
  | m + 1, n, g, o => do
    let (g, modified) ← o.foldlM (Gc.markTable n) (g, 0)
    let g ← g.drain n n
    if modified = 0 then some g else Gc.passOne m n g []

/-- A hash table with another chain, which is one entry shorter. -/
def Value.unlink (i : Nat) (chain : List Entry) : Value → Value
  | .hash sk ha count comp fn => .hash sk (ha.set i chain) (count - 1) comp fn
  | v => v

/-- The table at `o` with another chain, which is one entry shorter. -/
def Gc.unlink (g : Gc) (o : Addr) (i : Nat) (chain : List Entry) : Gc :=
  g.alter o fun ob => { ob with value := ob.value.unlink i chain }

/-- The second pass of `idio_gc_mark_weak` along the chain `i` of the table `o`, where the entries
before those to come are `kept`. -/
def Gc.ditchChain (n : Nat) (o : Addr) (i : Nat) : List Entry → List Entry → Gc → Option Gc
  | _, [], g => some g
  | kept, he :: hen, g =>
    match he.key with
    | .pointer k =>
      if (g.at k).colour = .black then
        g.gccMark n he.value >>= Gc.ditchChain n o i (kept ++ [he]) hen
      else
        (if (g.at k).finalizer then g.finalizerRun k else some g) >>= fun g =>
          Gc.ditchChain n o i kept hen (g.unlink o i (kept ++ hen))
    | _ => Gc.ditchChain n o i (kept ++ [he]) hen g

/-- The chain `i` of a hash table. -/
def Value.chain (i : Nat) : Value → List Entry
  | .hash _ ha _ _ _ => ha.getD i []
  | _ => []

/-- The second pass of `idio_gc_mark_weak` at a table. -/
def Gc.ditchTable (n : Nat) (g : Gc) (o : Addr) : Option Gc :=
  match (g.at o).value with
  | .hash _ ha _ _ _ =>
    (List.range ha.length).foldlM (fun g i => g.ditchChain n o i [] ((g.at o).value.chain i)) g
  | _ => none

/-- `idio_gc_mark_weak`. -/
def Gc.markWeak (n : Nat) (g : Gc) : Option Gc := do
  let g ← Gc.passOne 2 n g g.weak
  let g ← g.weak.foldlM (Gc.ditchTable n) g
  g.drain n n

/-- `idio_gc_gcc_mark` to white. -/
def Gc.whiten (g : Gc) (o : Addr) : Gc := if (g.at o).value.isNone then g else g.paint o .white

/-- The collector as `idio_gc_mark` begins: all objects in use are white, the grey list is empty. -/
def Gc.started (g : Gc) : Gc := (g.used.foldl Gc.whiten g).setGrey none

/-- `idio_gc_mark`. -/
def Gc.mark (g : Gc) : Option Gc := do
  let n := g.objects.length + 1
  let g := g.started
  let g ← g.gccMarkAll n g.roots
  let g ← g.gccMarkAll n g.autos
  let g ← g.drain n n
  g.markWeak n

/-! ## Sweeping -/

/-- `IDIO_GC_ALLOC_MANY`. -/
def allocMany : Nat := 500000

/-- `IDIO_GC_ALLOC_POOL`. -/
def allocPool : Nat := 1000

/-- The free objects given back at the start of `idio_gc_sweep`. -/
def trim : List Addr → Nat → Option (List Addr × Nat)
  | free, nfree =>
    if nfree ≤ allocMany then some (free, nfree)
    else match free with
      | [] => none
      | _ :: free => trim free (nfree - 1)

/-- `idio_gc_sweep_free_value`: what a type owns is freed with the object, and is not here. -/
def Gc.sweepFreeValue (g : Gc) (vo : Addr) : Option Gc :=
  (if (g.at vo).finalizer then g.finalizerRun vo else some g) >>= fun g =>
    if (g.at vo).value.isNone then none else some g

/-- The object at `co` put on the free list. -/
def Gc.release (g : Gc) (co : Addr) : Gc :=
  { g.alter co ({ · with value := .none, free := true }) with
    free := co :: g.free, nfree := g.nfree + 1 }

/-- The loop of `idio_gc_sweep`, where the objects in use before those to come are `kept`. -/
def Gc.sweepFrom : List Addr → List Addr → Gc → Option Gc
  | kept, [], g => some { g with used := kept }
  | kept, co :: no, g =>
    if (g.at co).sticky = false ∧ (g.at co).colour = .white then
      { g with used := kept ++ no }.sweepFreeValue co >>= fun g =>
        Gc.sweepFrom kept no (g.release co)
    else Gc.sweepFrom (kept ++ [co]) no g

/-- `idio_gc_sweep`. -/
def Gc.sweep (g : Gc) : Option Gc := do
  let (free, nfree) ← trim g.free g.nfree
  Gc.sweepFrom [] g.used { g with free := free, nfree := nfree }

/-- `idio_gc_collect`. -/
def Gc.collect (g : Gc) : Option Gc := do
  if g.pause ≠ 0 then some g
  else
    let g ← { g with request := false }.mark
    let g ← g.sweep
    some { g with igets := 0 }

/-- `idio_gc_possibly_collect`. -/
def Gc.possiblyCollect (g : Gc) : Option Gc :=
  if g.pause = 0 ∧ g.request then g.collect else some g

/-! ## Objects for the program -/

/-- `idio_gc_get_alloc`: a pool of objects is allocated, and the last of them is returned. -/
def Gc.getAlloc (g : Gc) : Addr × Gc :=
  let n := g.objects.length
  (n + (allocPool - 1),
    { g with
      objects := g.objects ++ List.replicate allocPool {}
      free := ((List.range (allocPool - 1)).map (n + ·)).reverse ++ g.free
      nfree := g.nfree + (allocPool - 1)
      request := true })

/-- The free object that `idio_gc_get` takes. -/
def Gc.take (g : Gc) : Addr × Gc :=
  match g.free with
  | [] => g.getAlloc
  | o :: free => (o, { g with free := free, nfree := g.nfree - 1 })

/-- An object made out by `idio_gc_get`: the flags it begins with, and the value it is to have. -/
def Object.fresh (v : Value) (ob : Object) : Object :=
  { ob with value := v, colour := .white, free := false, sticky := false, finalizer := false }

/-- `idio_gc_get`, for an object that is to have the value `v`. -/
def Gc.get (g : Gc) (v : Value) : Addr × Gc :=
  let (o, g) := g.take
  (o, { g.alter o (Object.fresh v) with
    used := o :: g.used, igets := g.igets + 1,
    request := g.request || decide (g.igets > allocMany) })

/-- The search of `idio_gc_protect` for an object or a place in the list of roots. -/
def protectIn (o : Ref) : List Ref → Option (List Ref)
  | [] => none
  | r :: rs =>
    if o = r then some (r :: rs)
    else if r = .nil then some (o :: rs)
    else (protectIn o rs).map (r :: ·)

/-- `idio_gc_protect`. -/
def Gc.protect (g : Gc) (o : Ref) : Gc :=
  match o with
  | .pointer _ => { g with roots := (protectIn o g.roots).getD (o :: g.roots) }
  | _ => g

/-- `idio_gc_protect_auto`. -/
def Gc.protectAuto (g : Gc) (o : Ref) : Gc :=
  match o with
  | .pointer _ => { g with autos := (protectIn o g.autos).getD (o :: g.autos) }
  | _ => g

/-- `idio_gc_expose`. -/
def Gc.expose (g : Gc) (o : Ref) : Option Gc :=
  match o with
  | .pointer _ => if o ∈ g.roots then some { g with roots := g.roots.erase o } else none
  | _ => some g

/-- `idio_gc_expose_roots`. -/
def Gc.exposeRoots (g : Gc) : Gc := { g with roots := [] }

/-- `idio_gc_expose_autos`. -/
def Gc.exposeAutos (g : Gc) : Gc := { g with autos := [] }

/-- `idio_gc_add_weak_object`. -/
def Gc.addWeakObject (g : Gc) (o : Addr) : Option Gc :=
  if (g.at o).value.isHash then
    if o ∈ g.used then some { g with used := g.used.erase o, weak := o :: g.weak } else none
  else none

/-- The program gives an object another value. -/
def Gc.store (g : Gc) (a : Addr) (v : Value) : Gc := g.alter a ({ · with value := v })

/-- The flag that `idio_gc_register_finalizer` sets, once the object is in the table of finalizers,
and `idio_gc_deregister_finalizer` takes back. -/
def Gc.setFinalizer (g : Gc) (a : Addr) (flag : Bool) : Gc := g.alter a ({ · with finalizer := flag })

/-- `idio_gc_pause`. -/
def Gc.pauseGc (g : Gc) : Gc := { g with pause := g.pause + 1 }

/-- `idio_gc_resume`. -/
def Gc.resumeGc (g : Gc) : Gc := { g with pause := if g.pause - 1 < 0 then 0 else g.pause - 1 }

/-- `idio_gc_reset`. -/
def Gc.resetGc (g : Gc) (pause : Int) : Gc := { g with pause := pause }

end Idio.Collector
