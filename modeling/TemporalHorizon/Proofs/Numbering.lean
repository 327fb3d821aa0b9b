import TemporalHorizon.Store.Basic

/-!
# Numbers of formulas

A store gives numbers to formulas, and everything the encoder remembers is filed
under these numbers.  This module says what the numbers are good for: a formula
that has a number keeps it, and two formulas never have the same one.  After it,
the encoder can be described by what it remembers of *formulas*.

`idOf?` is the number of a formula that is in a store with all its parts; unlike
`intern` it adds nothing.  The main statements are

* `intern_spec`: interning only appends, and gives the formula the number that
  `idOf?` reads off afterwards;
* `intern_of_idOf?`: interning a formula that is there changes nothing;
* `idOf?_mono`: appending keeps the numbers;
* `idOf?_injective`: a number belongs to one formula;
* `idOf?_of_lt`: a formula whose number is old was there before.  For this the
  references inside the store must be in range, which `intern` keeps (`Closed`).
-/

namespace TemporalHorizon
namespace Store

/-! ## Reading numbers -/

mutual

/-- The number of a formula, if it is in the store. -/
def idOf? (store : Store) : Formula → Option FormulaId
  | .atom name args positive => store.find? (.atom name args positive)
  | .bool value => store.find? (.bool value)
  | .initial => store.find? .initial
  | .final => store.find? .final
  | .not arg => (store.idOf? arg).bind fun arg => store.find? (.not arg)
  | .binary op lhs rhs => (store.idOf? lhs).bind fun lhs =>
    (store.idOf? rhs).bind fun rhs => store.find? (.binary op lhs rhs)
  | .previous arg weak => (store.idOf? arg).bind fun arg => store.find? (.previous arg weak)
  | .next arg weak => (store.idOf? arg).bind fun arg => store.find? (.next arg weak)
  | .initially arg => (store.idOf? arg).bind fun arg => store.find? (.initially arg)
  | .temporal op lhs rhs => (store.idOf? lhs).bind fun lhs =>
    (store.idOf? rhs).bind fun rhs => store.find? (.temporal op lhs rhs)
  | .modal op arg => (store.idOf? arg).bind fun arg => store.find? (.modal op arg)
  | .dynamic modality path arg => (store.pathIdOf? path).bind fun path =>
    (store.idOf? arg).bind fun arg => store.find? (.dynamic modality path arg)

/-- The number of a path, if it is in the store. -/
def pathIdOf? (store : Store) : Path → Option PathId
  | .skip => store.findPath? .skip
  | .test arg => (store.idOf? arg).bind fun arg => store.findPath? (.test arg)
  | .seq first second => (store.pathIdOf? first).bind fun first =>
    (store.pathIdOf? second).bind fun second => store.findPath? (.seq first second)
  | .choice lhs rhs => (store.pathIdOf? lhs).bind fun lhs =>
    (store.pathIdOf? rhs).bind fun rhs => store.findPath? (.choice lhs rhs)
  | .star body => (store.pathIdOf? body).bind fun body => store.findPath? (.star body)

end

/-! ## Single nodes -/

theorem node?_of_find? {store : Store} {node : Node} {id : FormulaId}
    (h : store.find? node = some id) : store.node? id = some node := by
  rw [find?, Option.map_eq_some_iff] at h
  obtain ⟨i, hi, rfl⟩ := h
  obtain ⟨hlt, hnode, _⟩ := List.idxOf?_eq_some_iff.1 hi
  exact (List.getElem?_eq_getElem hlt).trans (congrArg some hnode)

theorem pathNode?_of_findPath? {store : Store} {node : PathNode} {id : PathId}
    (h : store.findPath? node = some id) : store.pathNode? id = some node := by
  rw [findPath?, Option.map_eq_some_iff] at h
  obtain ⟨i, hi, rfl⟩ := h
  obtain ⟨hlt, hnode, _⟩ := List.idxOf?_eq_some_iff.1 hi
  exact (List.getElem?_eq_getElem hlt).trans (congrArg some hnode)

/-! ## Appending -/

/-- The store has grown: nodes were appended, none was changed. -/
structure Extends (store later : Store) : Prop where
  nodes : ∃ more, later.nodes = store.nodes ++ more
  paths : ∃ more, later.paths = store.paths ++ more

theorem Extends.refl (store : Store) : store.Extends store :=
  ⟨⟨[], (List.append_nil _).symm⟩, ⟨[], (List.append_nil _).symm⟩⟩

theorem Extends.trans {store middle later : Store} (h : store.Extends middle)
    (h' : middle.Extends later) : store.Extends later := by
  obtain ⟨⟨ns, hns⟩, ⟨ps, hps⟩⟩ := h
  obtain ⟨⟨ns', hns'⟩, ⟨ps', hps'⟩⟩ := h'
  refine ⟨⟨ns ++ ns', ?_⟩, ⟨ps ++ ps', ?_⟩⟩
  · rw [hns', hns, List.append_assoc]
  · rw [hps', hps, List.append_assoc]

theorem Extends.size_le {store later : Store} (h : store.Extends later) :
    store.size ≤ later.size := by
  obtain ⟨ns, hns⟩ := h.nodes
  rw [size, size, hns, List.length_append]
  omega

theorem find?_mono {store later : Store} (h : store.Extends later) {node : Node}
    {id : FormulaId} (hid : store.find? node = some id) : later.find? node = some id := by
  rw [find?, Option.map_eq_some_iff] at hid ⊢
  obtain ⟨i, hi, rfl⟩ := hid
  obtain ⟨ns, hns⟩ := h.nodes
  refine ⟨i, ?_, rfl⟩
  rw [List.idxOf?] at hi ⊢
  rw [hns, List.findIdx?_append, hi, Option.some_or]

theorem findPath?_mono {store later : Store} (h : store.Extends later) {node : PathNode}
    {id : PathId} (hid : store.findPath? node = some id) :
    later.findPath? node = some id := by
  rw [findPath?, Option.map_eq_some_iff] at hid ⊢
  obtain ⟨i, hi, rfl⟩ := hid
  obtain ⟨ps, hps⟩ := h.paths
  refine ⟨i, ?_, rfl⟩
  rw [List.idxOf?] at hi ⊢
  rw [hps, List.findIdx?_append, hi, Option.some_or]

/-- Appending keeps the node of an old number. -/
theorem node?_of_extends {store later : Store} (h : store.Extends later) {id : FormulaId}
    (hid : id.index < store.size) : later.node? id = store.node? id := by
  obtain ⟨ns, hns⟩ := h.nodes
  rw [node?, node?, hns, List.getElem?_append_left hid]

theorem pathNode?_of_extends {store later : Store} (h : store.Extends later) {id : PathId}
    (hid : id.index < store.paths.length) : later.pathNode? id = store.pathNode? id := by
  obtain ⟨ps, hps⟩ := h.paths
  rw [pathNode?, pathNode?, hps, List.getElem?_append_left hid]

mutual

/-- Appending keeps the numbers of formulas. -/
theorem idOf?_mono {store later : Store} (h : store.Extends later) :
    (f : Formula) → {id : FormulaId} → store.idOf? f = some id → later.idOf? f = some id
  | .atom _ _ _, _, hid | .bool _, _, hid | .initial, _, hid | .final, _, hid =>
    find?_mono h hid
  | .not arg, _, hid | .previous arg _, _, hid | .next arg _, _, hid | .initially arg, _, hid
  | .modal _ arg, _, hid => by
    simp only [idOf?, Option.bind_eq_some_iff] at hid ⊢
    obtain ⟨a, ha, hid⟩ := hid
    exact ⟨a, idOf?_mono h arg ha, find?_mono h hid⟩
  | .binary _ lhs rhs, _, hid | .temporal _ lhs rhs, _, hid => by
    simp only [idOf?, Option.bind_eq_some_iff] at hid ⊢
    obtain ⟨a, ha, b, hb, hid⟩ := hid
    exact ⟨a, idOf?_mono h lhs ha, b, idOf?_mono h rhs hb, find?_mono h hid⟩
  | .dynamic _ path arg, _, hid => by
    simp only [idOf?, Option.bind_eq_some_iff] at hid ⊢
    obtain ⟨a, ha, b, hb, hid⟩ := hid
    exact ⟨a, pathIdOf?_mono h path ha, b, idOf?_mono h arg hb, find?_mono h hid⟩

/-- Appending keeps the numbers of paths. -/
theorem pathIdOf?_mono {store later : Store} (h : store.Extends later) :
    (p : Path) → {id : PathId} → store.pathIdOf? p = some id → later.pathIdOf? p = some id
  | .skip, _, hid => findPath?_mono h hid
  | .test arg, _, hid => by
    simp only [pathIdOf?, Option.bind_eq_some_iff] at hid ⊢
    obtain ⟨a, ha, hid⟩ := hid
    exact ⟨a, idOf?_mono h arg ha, findPath?_mono h hid⟩
  | .seq lhs rhs, _, hid | .choice lhs rhs, _, hid => by
    simp only [pathIdOf?, Option.bind_eq_some_iff] at hid ⊢
    obtain ⟨a, ha, b, hb, hid⟩ := hid
    exact ⟨a, pathIdOf?_mono h lhs ha, b, pathIdOf?_mono h rhs hb, findPath?_mono h hid⟩
  | .star body, _, hid => by
    simp only [pathIdOf?, Option.bind_eq_some_iff] at hid ⊢
    obtain ⟨a, ha, hid⟩ := hid
    exact ⟨a, pathIdOf?_mono h body ha, findPath?_mono h hid⟩

end

/-! ## A number belongs to one formula -/

/-- A node is the outermost constructor of a formula, over the numbers of its
parts. -/
inductive Denotes (store : Store) : Node → Formula → Prop
  | atom (name args positive) : Denotes store (.atom name args positive) (.atom name args positive)
  | bool (value) : Denotes store (.bool value) (.bool value)
  | initial : Denotes store .initial .initial
  | final : Denotes store .final .final
  | not {a arg} : store.idOf? arg = some a → Denotes store (.not a) (.not arg)
  | binary {op a b lhs rhs} : store.idOf? lhs = some a → store.idOf? rhs = some b →
    Denotes store (.binary op a b) (.binary op lhs rhs)
  | previous {a arg weak} : store.idOf? arg = some a →
    Denotes store (.previous a weak) (.previous arg weak)
  | next {a arg weak} : store.idOf? arg = some a → Denotes store (.next a weak) (.next arg weak)
  | initially {a arg} : store.idOf? arg = some a → Denotes store (.initially a) (.initially arg)
  | temporal {op a b lhs rhs} : store.idOf? lhs = some a → store.idOf? rhs = some b →
    Denotes store (.temporal op a b) (.temporal op lhs rhs)
  | modal {op a arg} : store.idOf? arg = some a → Denotes store (.modal op a) (.modal op arg)
  | dynamic {modality p a path arg} : store.pathIdOf? path = some p → store.idOf? arg = some a →
    Denotes store (.dynamic modality p a) (.dynamic modality path arg)

/-- The same for paths. -/
inductive DenotesPath (store : Store) : PathNode → Path → Prop
  | skip : DenotesPath store .skip .skip
  | test {a arg} : store.idOf? arg = some a → DenotesPath store (.test a) (.test arg)
  | seq {a b lhs rhs} : store.pathIdOf? lhs = some a → store.pathIdOf? rhs = some b →
    DenotesPath store (.seq a b) (.seq lhs rhs)
  | choice {a b lhs rhs} : store.pathIdOf? lhs = some a → store.pathIdOf? rhs = some b →
    DenotesPath store (.choice a b) (.choice lhs rhs)
  | star {a body} : store.pathIdOf? body = some a → DenotesPath store (.star a) (.star body)

/-- A formula with a number is denoted by a node that is found under it. -/
theorem exists_denotes {store : Store} {f : Formula} {id : FormulaId}
    (h : store.idOf? f = some id) :
    ∃ node, store.find? node = some id ∧ store.Denotes node f := by
  cases f with
  | atom name args positive => exact ⟨_, h, .atom name args positive⟩
  | bool value => exact ⟨_, h, .bool value⟩
  | initial => exact ⟨_, h, .initial⟩
  | final => exact ⟨_, h, .final⟩
  | not arg | previous arg weak | next arg weak | initially arg | modal op arg =>
    simp only [idOf?, Option.bind_eq_some_iff] at h
    obtain ⟨a, ha, h⟩ := h
    exact ⟨_, h, by constructor; exact ha⟩
  | binary op lhs rhs | temporal op lhs rhs | dynamic modality path arg =>
    simp only [idOf?, Option.bind_eq_some_iff] at h
    obtain ⟨a, ha, b, hb, h⟩ := h
    exact ⟨_, h, by constructor <;> assumption⟩

theorem exists_denotesPath {store : Store} {p : Path} {id : PathId}
    (h : store.pathIdOf? p = some id) :
    ∃ node, store.findPath? node = some id ∧ store.DenotesPath node p := by
  cases p with
  | skip => exact ⟨_, h, .skip⟩
  | test arg | star body =>
    simp only [pathIdOf?, Option.bind_eq_some_iff] at h
    obtain ⟨a, ha, h⟩ := h
    exact ⟨_, h, by constructor; exact ha⟩
  | seq lhs rhs | choice lhs rhs =>
    simp only [pathIdOf?, Option.bind_eq_some_iff] at h
    obtain ⟨a, ha, b, hb, h⟩ := h
    exact ⟨_, h, by constructor <;> assumption⟩

/-- A found formula has the number of the node that denotes it. -/
theorem idOf?_of_denotes {store : Store} {f : Formula} {node : Node} {id : FormulaId}
    (hd : store.Denotes node f) (h : store.find? node = some id) : store.idOf? f = some id := by
  cases hd <;> simp_all [idOf?]

theorem pathIdOf?_of_denotes {store : Store} {p : Path} {node : PathNode} {id : PathId}
    (hd : store.DenotesPath node p) (h : store.findPath? node = some id) :
    store.pathIdOf? p = some id := by
  cases hd <;> simp_all [pathIdOf?]

/-- Formulas with one number are denoted by one node. -/
theorem exists_denotes_both {store : Store} {f g : Formula} {id : FormulaId}
    (hf : store.idOf? f = some id) (hg : store.idOf? g = some id) :
    ∃ node, store.Denotes node f ∧ store.Denotes node g := by
  obtain ⟨node, hnode, hdf⟩ := exists_denotes hf
  obtain ⟨node', hnode', hdg⟩ := exists_denotes hg
  have heq : some node = some node' := (node?_of_find? hnode).symm.trans (node?_of_find? hnode')
  cases heq
  exact ⟨node, hdf, hdg⟩

theorem exists_denotesPath_both {store : Store} {p q : Path} {id : PathId}
    (hp : store.pathIdOf? p = some id) (hq : store.pathIdOf? q = some id) :
    ∃ node, store.DenotesPath node p ∧ store.DenotesPath node q := by
  obtain ⟨node, hnode, hdp⟩ := exists_denotesPath hp
  obtain ⟨node', hnode', hdq⟩ := exists_denotesPath hq
  have heq : some node = some node' :=
    (pathNode?_of_findPath? hnode).symm.trans (pathNode?_of_findPath? hnode')
  cases heq
  exact ⟨node, hdp, hdq⟩

mutual

/-- A number belongs to one formula. -/
theorem idOf?_injective {store : Store} {id : FormulaId} (f g : Formula)
    (hf : store.idOf? f = some id) (hg : store.idOf? g = some id) : f = g := by
  obtain ⟨node, hf, hg⟩ := exists_denotes_both hf hg
  match f with
  | .atom _ _ _ | .bool _ | .initial | .final =>
    cases hf; cases hg; rfl
  | .not arg | .previous arg _ | .next arg _ | .initially arg | .modal _ arg =>
    cases hf; next ha =>
    cases hg; next ha' =>
    rw [idOf?_injective arg _ ha ha']
  | .binary _ lhs rhs | .temporal _ lhs rhs =>
    cases hf; next ha hb =>
    cases hg; next ha' hb' =>
    rw [idOf?_injective lhs _ ha ha', idOf?_injective rhs _ hb hb']
  | .dynamic _ path arg =>
    cases hf; next ha hb =>
    cases hg; next ha' hb' =>
    rw [pathIdOf?_injective path _ ha ha', idOf?_injective arg _ hb hb']
termination_by structural f

/-- A number belongs to one path. -/
theorem pathIdOf?_injective {store : Store} {id : PathId} (p q : Path)
    (hp : store.pathIdOf? p = some id) (hq : store.pathIdOf? q = some id) : p = q := by
  obtain ⟨node, hp, hq⟩ := exists_denotesPath_both hp hq
  match p with
  | .skip =>
    cases hp; cases hq; rfl
  | .test arg =>
    cases hp; next ha =>
    cases hq; next ha' =>
    rw [idOf?_injective arg _ ha ha']
  | .seq lhs rhs | .choice lhs rhs =>
    cases hp; next ha hb =>
    cases hq; next ha' hb' =>
    rw [pathIdOf?_injective lhs _ ha ha', pathIdOf?_injective rhs _ hb hb']
  | .star body =>
    cases hp; next ha =>
    cases hq; next ha' =>
    rw [pathIdOf?_injective body _ ha ha']
termination_by structural p

end

/-! ## References in range -/

theorem idOf?_lt {store : Store} {f : Formula} {id : FormulaId} (h : store.idOf? f = some id) :
    id.index < store.size := by
  obtain ⟨node, hnode, _⟩ := exists_denotes h
  exact (List.getElem?_eq_some_iff.1 (node?_of_find? hnode)).1

theorem pathIdOf?_lt {store : Store} {p : Path} {id : PathId} (h : store.pathIdOf? p = some id) :
    id.index < store.paths.length := by
  obtain ⟨node, hnode, _⟩ := exists_denotesPath h
  exact (List.getElem?_eq_some_iff.1 (pathNode?_of_findPath? hnode)).1

/-- All references inside the store are to nodes of the store. -/
structure Closed (store : Store) : Prop where
  nodes : ∀ node ∈ store.nodes, (∀ id ∈ node.formulas, id.index < store.size) ∧
    ∀ id ∈ node.paths, id.index < store.paths.length
  paths : ∀ node ∈ store.paths, (∀ id ∈ node.formulas, id.index < store.size) ∧
    ∀ id ∈ node.paths, id.index < store.paths.length

theorem closed_empty : empty.Closed :=
  ⟨fun _ h => (List.not_mem_nil h).elim, fun _ h => (List.not_mem_nil h).elim⟩

/-- The parts of a denoted formula have numbers in range. -/
theorem Denotes.inRange {store : Store} {node : Node} {f : Formula} (h : store.Denotes node f) :
    (∀ id ∈ node.formulas, id.index < store.size) ∧
      ∀ id ∈ node.paths, id.index < store.paths.length := by
  cases h <;> simp only [Node.formulas, Node.paths, List.mem_cons, List.not_mem_nil, or_false,
    forall_eq_or_imp, forall_eq, false_implies, implies_true, and_true] <;>
    grind [→ idOf?_lt, → pathIdOf?_lt]

theorem DenotesPath.inRange {store : Store} {node : PathNode} {p : Path}
    (h : store.DenotesPath node p) :
    (∀ id ∈ node.formulas, id.index < store.size) ∧
      ∀ id ∈ node.paths, id.index < store.paths.length := by
  cases h <;> simp only [PathNode.formulas, PathNode.paths, List.mem_cons, List.not_mem_nil,
    or_false, forall_eq_or_imp, forall_eq, false_implies, implies_true, and_true, true_and] <;>
    grind [→ idOf?_lt, → pathIdOf?_lt]

/-- Old numbers are found in the old store. -/
theorem find?_of_lt {store later : Store} (h : store.Extends later) {node : Node}
    {id : FormulaId} (hid : later.find? node = some id) (hlt : id.index < store.size) :
    store.find? node = some id := by
  have hmem : node ∈ store.nodes := by
    have hnode := node?_of_find? hid
    rw [node?_of_extends h hlt] at hnode
    exact List.mem_of_getElem? hnode
  obtain ⟨i, hi⟩ := Option.isSome_iff_exists.1 (List.isSome_idxOf?.2 hmem)
  have hfound : store.find? node = some ⟨i⟩ := by rw [find?, hi]; rfl
  exact hfound.trans ((find?_mono h hfound).symm.trans hid)

theorem findPath?_of_lt {store later : Store} (h : store.Extends later) {node : PathNode}
    {id : PathId} (hid : later.findPath? node = some id) (hlt : id.index < store.paths.length) :
    store.findPath? node = some id := by
  have hmem : node ∈ store.paths := by
    have hnode := pathNode?_of_findPath? hid
    rw [pathNode?_of_extends h hlt] at hnode
    exact List.mem_of_getElem? hnode
  obtain ⟨i, hi⟩ := Option.isSome_iff_exists.1 (List.isSome_idxOf?.2 hmem)
  have hfound : store.findPath? node = some ⟨i⟩ := by rw [findPath?, hi]; rfl
  exact hfound.trans ((findPath?_mono h hfound).symm.trans hid)

/-- The parts of a formula that is denoted by an old node have old numbers. -/
theorem Closed.inRange_of_find? {store later : Store} (hc : store.Closed)
    (h : store.Extends later) {node : Node} {id : FormulaId} (hid : later.find? node = some id)
    (hlt : id.index < store.size) :
    (∀ id ∈ node.formulas, id.index < store.size) ∧
      ∀ id ∈ node.paths, id.index < store.paths.length :=
  hc.nodes node (List.mem_of_getElem? (node?_of_find? (find?_of_lt h hid hlt)))

theorem Closed.inRange_of_findPath? {store later : Store} (hc : store.Closed)
    (h : store.Extends later) {node : PathNode} {id : PathId}
    (hid : later.findPath? node = some id) (hlt : id.index < store.paths.length) :
    (∀ id ∈ node.formulas, id.index < store.size) ∧
      ∀ id ∈ node.paths, id.index < store.paths.length :=
  hc.paths node (List.mem_of_getElem? (pathNode?_of_findPath? (findPath?_of_lt h hid hlt)))

mutual

/-- A formula whose number is old was there before. -/
theorem idOf?_of_lt {store later : Store} (hc : store.Closed) (h : store.Extends later) :
    (f : Formula) → {id : FormulaId} → later.idOf? f = some id → id.index < store.size →
      store.idOf? f = some id
  | .atom _ _ _, _, hid, hlt | .bool _, _, hid, hlt | .initial, _, hid, hlt
  | .final, _, hid, hlt => find?_of_lt h hid hlt
  | .not arg, _, hid, hlt | .previous arg _, _, hid, hlt | .next arg _, _, hid, hlt
  | .initially arg, _, hid, hlt | .modal _ arg, _, hid, hlt => by
    simp only [idOf?, Option.bind_eq_some_iff] at hid ⊢
    obtain ⟨a, ha, hid⟩ := hid
    have hrange := (hc.inRange_of_find? h hid hlt).1 a (by simp [Node.formulas])
    exact ⟨a, idOf?_of_lt hc h arg ha hrange, find?_of_lt h hid hlt⟩
  | .binary _ lhs rhs, _, hid, hlt | .temporal _ lhs rhs, _, hid, hlt => by
    simp only [idOf?, Option.bind_eq_some_iff] at hid ⊢
    obtain ⟨a, ha, b, hb, hid⟩ := hid
    have hrange := (hc.inRange_of_find? h hid hlt).1
    exact ⟨a, idOf?_of_lt hc h lhs ha (hrange a (by simp [Node.formulas])),
      b, idOf?_of_lt hc h rhs hb (hrange b (by simp [Node.formulas])), find?_of_lt h hid hlt⟩
  | .dynamic _ path arg, _, hid, hlt => by
    simp only [idOf?, Option.bind_eq_some_iff] at hid ⊢
    obtain ⟨a, ha, b, hb, hid⟩ := hid
    have hrange := hc.inRange_of_find? h hid hlt
    exact ⟨a, pathIdOf?_of_lt hc h path ha (hrange.2 a (by simp [Node.paths])),
      b, idOf?_of_lt hc h arg hb (hrange.1 b (by simp [Node.formulas])), find?_of_lt h hid hlt⟩

/-- A path whose number is old was there before. -/
theorem pathIdOf?_of_lt {store later : Store} (hc : store.Closed) (h : store.Extends later) :
    (p : Path) → {id : PathId} → later.pathIdOf? p = some id → id.index < store.paths.length →
      store.pathIdOf? p = some id
  | .skip, _, hid, hlt => findPath?_of_lt h hid hlt
  | .test arg, _, hid, hlt => by
    simp only [pathIdOf?, Option.bind_eq_some_iff] at hid ⊢
    obtain ⟨a, ha, hid⟩ := hid
    have hrange := (hc.inRange_of_findPath? h hid hlt).1 a (by simp [PathNode.formulas])
    exact ⟨a, idOf?_of_lt hc h arg ha hrange, findPath?_of_lt h hid hlt⟩
  | .seq lhs rhs, _, hid, hlt | .choice lhs rhs, _, hid, hlt => by
    simp only [pathIdOf?, Option.bind_eq_some_iff] at hid ⊢
    obtain ⟨a, ha, b, hb, hid⟩ := hid
    have hrange := (hc.inRange_of_findPath? h hid hlt).2
    exact ⟨a, pathIdOf?_of_lt hc h lhs ha (hrange a (by simp [PathNode.paths])),
      b, pathIdOf?_of_lt hc h rhs hb (hrange b (by simp [PathNode.paths])),
      findPath?_of_lt h hid hlt⟩
  | .star body, _, hid, hlt => by
    simp only [pathIdOf?, Option.bind_eq_some_iff] at hid ⊢
    obtain ⟨a, ha, hid⟩ := hid
    have hrange := (hc.inRange_of_findPath? h hid hlt).2 a (by simp [PathNode.paths])
    exact ⟨a, pathIdOf?_of_lt hc h body ha hrange, findPath?_of_lt h hid hlt⟩

end

/-! ## Interning -/

/-- What adding a node does. -/
theorem add_spec (store : Store) (node : Node) :
    store.Extends (store.add node).2 ∧
      (store.add node).2.find? node = some (store.add node).1 := by
  unfold add
  cases h : store.find? node with
  | some id => exact ⟨.refl store, h⟩
  | none =>
    have hnew : store.nodes.findIdx? (· == node) = none := by
      rw [find?, Option.map_eq_none_iff] at h
      exact h
    refine ⟨⟨⟨[node], rfl⟩, ⟨[], (List.append_nil _).symm⟩⟩, ?_⟩
    rw [find?, List.idxOf?, List.findIdx?_append, hnew]
    simp

theorem addPath_spec (store : Store) (node : PathNode) :
    store.Extends (store.addPath node).2 ∧
      (store.addPath node).2.findPath? node = some (store.addPath node).1 := by
  unfold addPath
  cases h : store.findPath? node with
  | some id => exact ⟨.refl store, h⟩
  | none =>
    have hnew : store.paths.findIdx? (· == node) = none := by
      rw [findPath?, Option.map_eq_none_iff] at h
      exact h
    refine ⟨⟨⟨[], (List.append_nil _).symm⟩, ⟨[node], rfl⟩⟩, ?_⟩
    rw [findPath?, List.idxOf?, List.findIdx?_append, hnew]
    simp

theorem Denotes.mono {store later : Store} (h : store.Extends later) {node : Node} {f : Formula}
    (hd : store.Denotes node f) : later.Denotes node f := by
  cases hd <;> constructor <;>
    first | exact idOf?_mono h _ ‹_› | exact pathIdOf?_mono h _ ‹_›

theorem DenotesPath.mono {store later : Store} (h : store.Extends later) {node : PathNode}
    {p : Path} (hd : store.DenotesPath node p) : later.DenotesPath node p := by
  cases hd <;> constructor <;>
    first | exact idOf?_mono h _ ‹_› | exact pathIdOf?_mono h _ ‹_›

theorem Closed.add {store : Store} (hc : store.Closed) {node : Node} {f : Formula}
    (hd : store.Denotes node f) : (store.add node).2.Closed := by
  unfold Store.add
  split
  · exact hc
  · have hrange := hd.inRange
    have hsize : ({ store with nodes := store.nodes ++ [node] } : Store).size = store.size + 1 :=
      List.length_append
    refine ⟨fun other hother => ?_, fun other hother => ?_⟩
    · rw [hsize]
      rcases List.mem_append.1 hother with hold | hnew
      · exact ⟨fun id hid => Nat.lt_succ_of_lt ((hc.nodes other hold).1 id hid),
          (hc.nodes other hold).2⟩
      · rw [List.mem_singleton.1 hnew]
        exact ⟨fun id hid => Nat.lt_succ_of_lt (hrange.1 id hid), hrange.2⟩
    · rw [hsize]
      exact ⟨fun id hid => Nat.lt_succ_of_lt ((hc.paths other hother).1 id hid),
        (hc.paths other hother).2⟩

theorem Closed.addPath {store : Store} (hc : store.Closed) {node : PathNode} {p : Path}
    (hd : store.DenotesPath node p) : (store.addPath node).2.Closed := by
  unfold Store.addPath
  split
  · exact hc
  · have hrange := hd.inRange
    have hsize : (store.paths ++ [node]).length = store.paths.length + 1 := List.length_append
    refine ⟨fun other hother => ?_, fun other hother => ?_⟩
    · refine ⟨(hc.nodes other hother).1, fun id hid => ?_⟩
      exact hsize ▸ Nat.lt_succ_of_lt ((hc.nodes other hother).2 id hid)
    · rcases List.mem_append.1 hother with hold | hnew
      · refine ⟨(hc.paths other hold).1, fun id hid => ?_⟩
        exact hsize ▸ Nat.lt_succ_of_lt ((hc.paths other hold).2 id hid)
      · rw [List.mem_singleton.1 hnew]
        exact ⟨hrange.1, fun id hid => hsize ▸ Nat.lt_succ_of_lt (hrange.2 id hid)⟩

/-- What interning a formula gives: a larger store in which the formula has the
returned number. -/
structure Interned (store : Store) (f : Formula) (result : FormulaId × Store) : Prop where
  grown : store.Extends result.2
  number : result.2.idOf? f = some result.1
  closed : store.Closed → result.2.Closed

/-- The same for paths. -/
structure InternedPath (store : Store) (p : Path) (result : PathId × Store) : Prop where
  grown : store.Extends result.2
  number : result.2.pathIdOf? p = some result.1
  closed : store.Closed → result.2.Closed

/-- Adding the node of a formula whose parts are there interns the formula. -/
theorem Interned.of_add {store middle : Store} {node : Node} {f : Formula}
    (h : store.Extends middle) (hc : store.Closed → middle.Closed) (hd : middle.Denotes node f) :
    Interned store f (middle.add node) := by
  obtain ⟨hext, hfind⟩ := middle.add_spec node
  exact ⟨h.trans hext, idOf?_of_denotes (hd.mono hext) hfind, fun hs => (hc hs).add hd⟩

theorem InternedPath.of_add {store middle : Store} {node : PathNode} {p : Path}
    (h : store.Extends middle) (hc : store.Closed → middle.Closed)
    (hd : middle.DenotesPath node p) : InternedPath store p (middle.addPath node) := by
  obtain ⟨hext, hfind⟩ := middle.addPath_spec node
  exact ⟨h.trans hext, pathIdOf?_of_denotes (hd.mono hext) hfind, fun hs => (hc hs).addPath hd⟩

mutual

/-- Interning only appends, and gives the formula the number read off
afterwards. -/
theorem intern_spec (store : Store) : (f : Formula) → Interned store f (store.intern f)
  | .atom name args positive => .of_add (.refl store) id (.atom name args positive)
  | .bool value => .of_add (.refl store) id (.bool value)
  | .initial => .of_add (.refl store) id .initial
  | .final => .of_add (.refl store) id .final
  | .not arg =>
    have ha := store.intern_spec arg
    .of_add ha.grown ha.closed (.not ha.number)
  | .previous arg _ =>
    have ha := store.intern_spec arg
    .of_add ha.grown ha.closed (.previous ha.number)
  | .next arg _ =>
    have ha := store.intern_spec arg
    .of_add ha.grown ha.closed (.next ha.number)
  | .initially arg =>
    have ha := store.intern_spec arg
    .of_add ha.grown ha.closed (.initially ha.number)
  | .modal _ arg =>
    have ha := store.intern_spec arg
    .of_add ha.grown ha.closed (.modal ha.number)
  | .binary _ lhs rhs =>
    have hl := store.intern_spec lhs
    have hr := (store.intern lhs).2.intern_spec rhs
    .of_add (hl.grown.trans hr.grown) (fun h => hr.closed (hl.closed h))
      (.binary (idOf?_mono hr.grown lhs hl.number) hr.number)
  | .temporal _ lhs rhs =>
    have hl := store.intern_spec lhs
    have hr := (store.intern lhs).2.intern_spec rhs
    .of_add (hl.grown.trans hr.grown) (fun h => hr.closed (hl.closed h))
      (.temporal (idOf?_mono hr.grown lhs hl.number) hr.number)
  | .dynamic _ path arg =>
    have hp := store.internPath_spec path
    have ha := (store.internPath path).2.intern_spec arg
    .of_add (hp.grown.trans ha.grown) (fun h => ha.closed (hp.closed h))
      (.dynamic (pathIdOf?_mono ha.grown path hp.number) ha.number)

/-- The same for paths. -/
theorem internPath_spec (store : Store) : (p : Path) → InternedPath store p (store.internPath p)
  | .skip => .of_add (.refl store) id .skip
  | .test arg =>
    have ha := store.intern_spec arg
    .of_add ha.grown ha.closed (.test ha.number)
  | .seq lhs rhs =>
    have hl := store.internPath_spec lhs
    have hr := (store.internPath lhs).2.internPath_spec rhs
    .of_add (hl.grown.trans hr.grown) (fun h => hr.closed (hl.closed h))
      (.seq (pathIdOf?_mono hr.grown lhs hl.number) hr.number)
  | .choice lhs rhs =>
    have hl := store.internPath_spec lhs
    have hr := (store.internPath lhs).2.internPath_spec rhs
    .of_add (hl.grown.trans hr.grown) (fun h => hr.closed (hl.closed h))
      (.choice (pathIdOf?_mono hr.grown lhs hl.number) hr.number)
  | .star body =>
    have hb := store.internPath_spec body
    .of_add hb.grown hb.closed (.star hb.number)

end

/-! ## Formulas that are already numbered -/

mutual

/-- Interning a formula that is there changes nothing. -/
theorem intern_of_idOf? {store : Store} : (f : Formula) → {id : FormulaId} →
    store.idOf? f = some id → store.intern f = (id, store)
  | .atom _ _ _, _, h | .bool _, _, h | .initial, _, h | .final, _, h => by
    simp only [idOf?] at h
    simp only [intern, add, h]
  | .not arg, _, h | .previous arg _, _, h | .next arg _, _, h | .initially arg, _, h
  | .modal _ arg, _, h => by
    simp only [idOf?, Option.bind_eq_some_iff] at h
    obtain ⟨a, ha, h⟩ := h
    simp only [intern, intern_of_idOf? arg ha, add, h]
  | .binary _ lhs rhs, _, h | .temporal _ lhs rhs, _, h => by
    simp only [idOf?, Option.bind_eq_some_iff] at h
    obtain ⟨l, hl, r, hr, h⟩ := h
    simp only [intern, intern_of_idOf? lhs hl, intern_of_idOf? rhs hr, add, h]
  | .dynamic _ path arg, _, h => by
    simp only [idOf?, Option.bind_eq_some_iff] at h
    obtain ⟨p, hp, a, ha, h⟩ := h
    simp only [intern, internPath_of_pathIdOf? path hp, intern_of_idOf? arg ha, add, h]

theorem internPath_of_pathIdOf? {store : Store} : (path : Path) → {id : PathId} →
    store.pathIdOf? path = some id → store.internPath path = (id, store)
  | .skip, _, h => by
    simp only [pathIdOf?] at h
    simp only [internPath, addPath, h]
  | .test arg, _, h => by
    simp only [pathIdOf?, Option.bind_eq_some_iff] at h
    obtain ⟨a, ha, h⟩ := h
    simp only [internPath, intern_of_idOf? arg ha, addPath, h]
  | .seq first second, _, h => by
    simp only [pathIdOf?, Option.bind_eq_some_iff] at h
    obtain ⟨a, ha, b, hb, h⟩ := h
    simp only [internPath, internPath_of_pathIdOf? first ha, internPath_of_pathIdOf? second hb,
      addPath, h]
  | .choice lhs rhs, _, h => by
    simp only [pathIdOf?, Option.bind_eq_some_iff] at h
    obtain ⟨a, ha, b, hb, h⟩ := h
    simp only [internPath, internPath_of_pathIdOf? lhs ha, internPath_of_pathIdOf? rhs hb,
      addPath, h]
  | .star body, _, h => by
    simp only [pathIdOf?, Option.bind_eq_some_iff] at h
    obtain ⟨a, ha, h⟩ := h
    simp only [internPath, internPath_of_pathIdOf? body ha, addPath, h]

end

end Store
end TemporalHorizon
