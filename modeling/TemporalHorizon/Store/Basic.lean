import TemporalHorizon.Store.Node

/-!
# Stores of shared formulas

A store numbers formulas and paths in the order in which their nodes were first
added.  Adding a node that is already there gives the number it has, so
structurally equal formulas share one number: `intern` adds a tree bottom up,
parts before the whole and left before right.

`formula?` and `path?` read a tree back.  A node only refers to parts that were
there before it, so a chain of references is no longer than the store is large;
that is the bound with which the trees are read.
-/

namespace TemporalHorizon

/-- Formulas and paths by number. -/
structure Store where
  nodes : List Node := []
  paths : List PathNode := []
  deriving DecidableEq

namespace Store

/-- The store without any formula. -/
def empty : Store := {}

/-- The number of distinct formulas. -/
def size (store : Store) : Nat := store.nodes.length

/-- The node of a formula. -/
def node? (store : Store) (id : FormulaId) : Option Node := store.nodes[id.index]?

/-- The node of a path. -/
def pathNode? (store : Store) (id : PathId) : Option PathNode := store.paths[id.index]?

/-- The number of a node, if it is in the store. -/
def find? (store : Store) (node : Node) : Option FormulaId :=
  (store.nodes.idxOf? node).map FormulaId.mk

/-- The number of a path node, if it is in the store. -/
def findPath? (store : Store) (node : PathNode) : Option PathId :=
  (store.paths.idxOf? node).map PathId.mk

/-- The number of a node, added at the end if it is new. -/
def add (store : Store) (node : Node) : FormulaId × Store :=
  match store.find? node with
  | some id => (id, store)
  | none => (⟨store.nodes.length⟩, { store with nodes := store.nodes ++ [node] })

/-- The number of a path node, added at the end if it is new. -/
def addPath (store : Store) (node : PathNode) : PathId × Store :=
  match store.findPath? node with
  | some id => (id, store)
  | none => (⟨store.paths.length⟩, { store with paths := store.paths ++ [node] })

/-! ## Adding trees -/

mutual

/-- The number of a formula; its parts are added first. -/
def intern (store : Store) : Formula → FormulaId × Store
  | .atom name args positive => store.add (.atom name args positive)
  | .bool value => store.add (.bool value)
  | .initial => store.add .initial
  | .final => store.add .final
  | .not arg =>
    let (arg, store) := store.intern arg
    store.add (.not arg)
  | .binary op lhs rhs =>
    let (lhs, store) := store.intern lhs
    let (rhs, store) := store.intern rhs
    store.add (.binary op lhs rhs)
  | .previous arg weak =>
    let (arg, store) := store.intern arg
    store.add (.previous arg weak)
  | .next arg weak =>
    let (arg, store) := store.intern arg
    store.add (.next arg weak)
  | .initially arg =>
    let (arg, store) := store.intern arg
    store.add (.initially arg)
  | .temporal op lhs rhs =>
    let (lhs, store) := store.intern lhs
    let (rhs, store) := store.intern rhs
    store.add (.temporal op lhs rhs)
  | .modal op arg =>
    let (arg, store) := store.intern arg
    store.add (.modal op arg)
  | .dynamic modality path arg =>
    let (path, store) := store.internPath path
    let (arg, store) := store.intern arg
    store.add (.dynamic modality path arg)

/-- The number of a path; its parts are added first. -/
def internPath (store : Store) : Path → PathId × Store
  | .skip => store.addPath .skip
  | .test arg =>
    let (arg, store) := store.intern arg
    store.addPath (.test arg)
  | .seq first second =>
    let (first, store) := store.internPath first
    let (second, store) := store.internPath second
    store.addPath (.seq first second)
  | .choice lhs rhs =>
    let (lhs, store) := store.internPath lhs
    let (rhs, store) := store.internPath rhs
    store.addPath (.choice lhs rhs)
  | .star body =>
    let (body, store) := store.internPath body
    store.addPath (.star body)

end

/-! ## Reading trees back -/

mutual

/-- The tree of a formula, along chains of at most the given length. -/
def formulaWithin (store : Store) : Nat → FormulaId → Option Formula
  | 0, _ => none
  | n + 1, id =>
    match store.node? id with
    | none => none
    | some (.atom name args positive) => some (.atom name args positive)
    | some (.bool value) => some (.bool value)
    | some .initial => some .initial
    | some .final => some .final
    | some (.not arg) => do
      let arg ← store.formulaWithin n arg
      return .not arg
    | some (.binary op lhs rhs) => do
      let lhs ← store.formulaWithin n lhs
      let rhs ← store.formulaWithin n rhs
      return .binary op lhs rhs
    | some (.previous arg weak) => do
      let arg ← store.formulaWithin n arg
      return .previous arg weak
    | some (.next arg weak) => do
      let arg ← store.formulaWithin n arg
      return .next arg weak
    | some (.initially arg) => do
      let arg ← store.formulaWithin n arg
      return .initially arg
    | some (.temporal op lhs rhs) => do
      let lhs ← store.formulaWithin n lhs
      let rhs ← store.formulaWithin n rhs
      return .temporal op lhs rhs
    | some (.modal op arg) => do
      let arg ← store.formulaWithin n arg
      return .modal op arg
    | some (.dynamic modality path arg) => do
      let path ← store.pathWithin n path
      let arg ← store.formulaWithin n arg
      return .dynamic modality path arg

/-- The tree of a path, along chains of at most the given length. -/
def pathWithin (store : Store) : Nat → PathId → Option Path
  | 0, _ => none
  | n + 1, id =>
    match store.pathNode? id with
    | none => none
    | some .skip => some .skip
    | some (.test arg) => do
      let arg ← store.formulaWithin n arg
      return .test arg
    | some (.seq first second) => do
      let first ← store.pathWithin n first
      let second ← store.pathWithin n second
      return .seq first second
    | some (.choice lhs rhs) => do
      let lhs ← store.pathWithin n lhs
      let rhs ← store.pathWithin n rhs
      return .choice lhs rhs
    | some (.star body) => do
      let body ← store.pathWithin n body
      return .star body

end

/-- No chain of references is longer than this. -/
def depth (store : Store) : Nat := store.nodes.length + store.paths.length

/-- The tree of a formula. -/
def formula? (store : Store) (id : FormulaId) : Option Formula :=
  store.formulaWithin store.depth id

/-- The tree of a path. -/
def path? (store : Store) (id : PathId) : Option Path :=
  store.pathWithin store.depth id

/-! ## Checks on stored paths -/

/-- Whether a stored path can be run without moving, along chains of at most the
given length. -/
def nullableWithin (store : Store) : Nat → PathId → Bool
  | 0, _ => false
  | n + 1, id =>
    match store.pathNode? id with
    | none | some .skip => false
    | some (.test _) | some (.star _) => true
    | some (.seq first second) => store.nullableWithin n first && store.nullableWithin n second
    | some (.choice lhs rhs) => store.nullableWithin n lhs || store.nullableWithin n rhs

/-- Whether a stored path can be run without moving. -/
def isNullable (store : Store) (id : PathId) : Bool :=
  store.nullableWithin store.depth id

/-- Whether a stored path is in normal form, along chains of at most the given
length. -/
def normalWithin (store : Store) : Nat → PathId → Bool
  | 0, _ => false
  | n + 1, id =>
    match store.pathNode? id with
    | none => false
    | some .skip => true
    | some (.test arg) => store.node? arg != some (.bool false)
    | some (.seq lhs rhs) | some (.choice lhs rhs) =>
      store.normalWithin n lhs && store.normalWithin n rhs
    | some (.star body) => !store.isNullable body && store.normalWithin n body

/-- Whether a stored path is in normal form. -/
def isNormal (store : Store) (id : PathId) : Bool :=
  store.normalWithin store.depth id

end Store
end TemporalHorizon
