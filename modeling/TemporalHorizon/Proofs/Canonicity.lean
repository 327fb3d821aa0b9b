import TemporalHorizon.Proofs.Numbering
import Mathlib.Logic.Relation

/-!
# One number for one tree

A store grows by interning whole trees and by adding single nodes over numbers that it
has given out.  However it came about, its numbers stand for trees exactly as `idOf?`
says: every number reads back as a tree, that tree has this number and no other, and
the reading never changes.

* `Growth`: one operation on a store, the references of an added node being in range.
* `formulaWithin_mono`: what has been read within some bound is read within a larger
  bound and from a larger store.
* `Legible`: every number belongs to a formula, and reading it gives that formula back.
  An added node keeps this (`Legible.add`), so interning does (`Legible.intern`).
* `canonical_of_growth`: numbers and trees correspond one to one in every store that
  was grown from the empty one, and keep doing so.
-/

namespace TemporalHorizon
namespace Store

/-! ## Operations -/

/-- The references of a node are numbers of the store. -/
def Admits (store : Store) (node : Node) : Prop :=
  (∀ id ∈ node.formulas, id.index < store.size) ∧
    ∀ id ∈ node.paths, id.index < store.paths.length

/-- The same for the node of a path. -/
def AdmitsPath (store : Store) (node : PathNode) : Prop :=
  (∀ id ∈ node.formulas, id.index < store.size) ∧
    ∀ id ∈ node.paths, id.index < store.paths.length

/-- One operation on a store.  Truth values, connectives, `next` and dynamic formulas
that are built over numbers are nodes that are added. -/
inductive Growth : Store → Store → Prop
  | intern (store : Store) (f : Formula) : Growth store (store.intern f).2
  | internPath (store : Store) (p : Path) : Growth store (store.internPath p).2
  | add {store : Store} {node : Node} (h : store.Admits node) : Growth store (store.add node).2
  | addPath {store : Store} {node : PathNode} (h : store.AdmitsPath node) :
    Growth store (store.addPath node).2

/-- Operations only append. -/
theorem Growth.extends {store later : Store} (h : Growth store later) : store.Extends later := by
  cases h with
  | intern f => exact (store.intern_spec f).grown
  | internPath p => exact (store.internPath_spec p).grown
  | add _ => exact (store.add_spec _).1
  | addPath _ => exact (store.addPath_spec _).1

theorem extends_of_growth {store later : Store} (h : Relation.ReflTransGen Growth store later) :
    store.Extends later := by
  induction h with
  | refl => exact .refl store
  | tail _ hstep ih => exact ih.trans hstep.extends

theorem Extends.depth_le {store later : Store} (h : store.Extends later) :
    store.depth ≤ later.depth := by
  obtain ⟨⟨ns, hns⟩, ⟨ps, hps⟩⟩ := h
  rw [depth, depth, hns, hps, List.length_append, List.length_append]
  omega

/-- The number given out for a node is in range. -/
theorem add_lt (store : Store) (node : Node) :
    (store.add node).1.index < (store.add node).2.size :=
  (List.getElem?_eq_some_iff.1 (node?_of_find? (store.add_spec node).2)).1

theorem addPath_lt (store : Store) (node : PathNode) :
    (store.addPath node).1.index < (store.addPath node).2.paths.length :=
  (List.getElem?_eq_some_iff.1 (pathNode?_of_findPath? (store.addPath_spec node).2)).1

/-! ## Reading from a larger store -/

theorem node?_mono {store later : Store} (h : store.Extends later) {id : FormulaId} {node : Node}
    (hnode : store.node? id = some node) : later.node? id = some node :=
  (node?_of_extends h (List.getElem?_eq_some_iff.1 hnode).1).trans hnode

theorem pathNode?_mono {store later : Store} (h : store.Extends later) {id : PathId}
    {node : PathNode} (hnode : store.pathNode? id = some node) :
    later.pathNode? id = some node :=
  (pathNode?_of_extends h (List.getElem?_eq_some_iff.1 hnode).1).trans hnode

mutual

/-- What has been read within some bound is read within a larger bound and from a
larger store. -/
theorem formulaWithin_mono {store later : Store} (h : store.Extends later) :
    {n m : Nat} → n ≤ m → {id : FormulaId} → {f : Formula} →
      store.formulaWithin n id = some f → later.formulaWithin m id = some f
  | 0, _, _, _, _, hf => by rw [formulaWithin] at hf; cases hf
  | n + 1, 0, hle, _, _, _ => absurd hle (Nat.not_succ_le_zero n)
  | n + 1, m + 1, hle, id, f, hf => by
    have hnm : n ≤ m := Nat.le_of_succ_le_succ hle
    rw [formulaWithin] at hf ⊢
    cases hnode : store.node? id with
    | none => rw [hnode] at hf; cases hf
    | some node =>
      rw [hnode] at hf
      rw [node?_mono h hnode]
      cases node with
      | atom _ _ _ | bool _ | initial | final => exact hf
      | not _ | previous _ _ | next _ _ | initially _ | modal _ _ =>
        obtain ⟨a, ha, hf⟩ := Option.bind_eq_some_iff.1 hf
        exact Option.bind_eq_some_iff.2 ⟨a, formulaWithin_mono h hnm ha, hf⟩
      | binary _ _ _ | temporal _ _ _ =>
        obtain ⟨a, ha, hf⟩ := Option.bind_eq_some_iff.1 hf
        obtain ⟨b, hb, hf⟩ := Option.bind_eq_some_iff.1 hf
        exact Option.bind_eq_some_iff.2 ⟨a, formulaWithin_mono h hnm ha,
          Option.bind_eq_some_iff.2 ⟨b, formulaWithin_mono h hnm hb, hf⟩⟩
      | dynamic _ _ _ =>
        obtain ⟨p, hp, hf⟩ := Option.bind_eq_some_iff.1 hf
        obtain ⟨a, ha, hf⟩ := Option.bind_eq_some_iff.1 hf
        exact Option.bind_eq_some_iff.2 ⟨p, pathWithin_mono h hnm hp,
          Option.bind_eq_some_iff.2 ⟨a, formulaWithin_mono h hnm ha, hf⟩⟩

/-- The same for paths. -/
theorem pathWithin_mono {store later : Store} (h : store.Extends later) :
    {n m : Nat} → n ≤ m → {id : PathId} → {p : Path} →
      store.pathWithin n id = some p → later.pathWithin m id = some p
  | 0, _, _, _, _, hp => by rw [pathWithin] at hp; cases hp
  | n + 1, 0, hle, _, _, _ => absurd hle (Nat.not_succ_le_zero n)
  | n + 1, m + 1, hle, id, p, hp => by
    have hnm : n ≤ m := Nat.le_of_succ_le_succ hle
    rw [pathWithin] at hp ⊢
    cases hnode : store.pathNode? id with
    | none => rw [hnode] at hp; cases hp
    | some node =>
      rw [hnode] at hp
      rw [pathNode?_mono h hnode]
      cases node with
      | skip => exact hp
      | test _ =>
        obtain ⟨a, ha, hp⟩ := Option.bind_eq_some_iff.1 hp
        exact Option.bind_eq_some_iff.2 ⟨a, formulaWithin_mono h hnm ha, hp⟩
      | seq _ _ | choice _ _ =>
        obtain ⟨a, ha, hp⟩ := Option.bind_eq_some_iff.1 hp
        obtain ⟨b, hb, hp⟩ := Option.bind_eq_some_iff.1 hp
        exact Option.bind_eq_some_iff.2 ⟨a, pathWithin_mono h hnm ha,
          Option.bind_eq_some_iff.2 ⟨b, pathWithin_mono h hnm hb, hp⟩⟩
      | star _ =>
        obtain ⟨a, ha, hp⟩ := Option.bind_eq_some_iff.1 hp
        exact Option.bind_eq_some_iff.2 ⟨a, pathWithin_mono h hnm ha, hp⟩

end

/-! ## Legible stores -/

/-- Every number belongs to a formula or a path, and reading the number gives that
tree back. -/
structure Legible (store : Store) : Prop where
  closed : store.Closed
  owner : ∀ id : FormulaId, id.index < store.size → ∃ f, store.idOf? f = some id
  ownerPath : ∀ id : PathId, id.index < store.paths.length → ∃ p, store.pathIdOf? p = some id
  read : ∀ {f id}, store.idOf? f = some id → store.formula? id = some f
  readPath : ∀ {p id}, store.pathIdOf? p = some id → store.path? id = some p

theorem legible_empty : empty.Legible where
  closed := closed_empty
  owner _ h := absurd h (Nat.not_lt_zero _)
  ownerPath _ h := absurd h (Nat.not_lt_zero _)
  read h := absurd (idOf?_lt h) (Nat.not_lt_zero _)
  readPath h := absurd (pathIdOf?_lt h) (Nat.not_lt_zero _)

namespace Legible

variable {store later : Store}

/-- A number that has an owner reads back from every larger store, within every
larger bound. -/
theorem formulaWithin (hl : store.Legible) (h : store.Extends later) {n : Nat}
    (hn : store.depth ≤ n) {f : Formula} {id : FormulaId} (hid : store.idOf? f = some id) :
    later.formulaWithin n id = some f :=
  formulaWithin_mono h hn (hl.read hid)

theorem pathWithin (hl : store.Legible) (h : store.Extends later) {n : Nat}
    (hn : store.depth ≤ n) {p : Path} {id : PathId} (hid : store.pathIdOf? p = some id) :
    later.pathWithin n id = some p :=
  pathWithin_mono h hn (hl.readPath hid)

/-- An admissible node is the outermost constructor of a formula. -/
theorem exists_denotes (hl : store.Legible) {node : Node} (h : store.Admits node) :
    ∃ f, store.Denotes node f := by
  obtain ⟨hformulas, hpaths⟩ := h
  cases node with
  | atom name args positive => exact ⟨_, .atom name args positive⟩
  | bool value => exact ⟨_, .bool value⟩
  | initial => exact ⟨_, .initial⟩
  | final => exact ⟨_, .final⟩
  | not a | previous a weak | next a weak | initially a | modal op a =>
    obtain ⟨f, hf⟩ := hl.owner a (hformulas a List.mem_cons_self)
    exact ⟨_, by constructor; exact hf⟩
  | binary op a b | temporal op a b =>
    obtain ⟨f, hf⟩ := hl.owner a (hformulas a List.mem_cons_self)
    obtain ⟨g, hg⟩ := hl.owner b (hformulas b (List.mem_cons_of_mem _ List.mem_cons_self))
    exact ⟨_, by constructor <;> assumption⟩
  | dynamic modality q a =>
    obtain ⟨p, hp⟩ := hl.ownerPath q (hpaths q List.mem_cons_self)
    obtain ⟨f, hf⟩ := hl.owner a (hformulas a List.mem_cons_self)
    exact ⟨_, .dynamic hp hf⟩

theorem exists_denotesPath (hl : store.Legible) {node : PathNode} (h : store.AdmitsPath node) :
    ∃ p, store.DenotesPath node p := by
  obtain ⟨hformulas, hpaths⟩ := h
  cases node with
  | skip => exact ⟨_, .skip⟩
  | test a =>
    obtain ⟨f, hf⟩ := hl.owner a (hformulas a List.mem_cons_self)
    exact ⟨_, .test hf⟩
  | seq a b | choice a b =>
    obtain ⟨p, hp⟩ := hl.ownerPath a (hpaths a List.mem_cons_self)
    obtain ⟨q, hq⟩ := hl.ownerPath b (hpaths b (List.mem_cons_of_mem _ List.mem_cons_self))
    exact ⟨_, by constructor <;> assumption⟩
  | star a =>
    obtain ⟨p, hp⟩ := hl.ownerPath a (hpaths a List.mem_cons_self)
    exact ⟨_, .star hp⟩

/-- A node over old numbers reads back one step later than they do. -/
theorem formulaWithin_succ (hl : store.Legible) (h : store.Extends later) {node : Node}
    {f : Formula} (hd : store.Denotes node f) {id : FormulaId} (hnode : later.node? id = some node) :
    later.formulaWithin (store.depth + 1) id = some f := by
  have hread : ∀ {g a}, store.idOf? g = some a → later.formulaWithin store.depth a = some g :=
    hl.formulaWithin h (Nat.le_refl _)
  have hreadPath : ∀ {q a}, store.pathIdOf? q = some a → later.pathWithin store.depth a = some q :=
    hl.pathWithin h (Nat.le_refl _)
  rw [Store.formulaWithin, hnode]
  cases hd with
  | atom | bool | initial | final => rfl
  | not ha | previous ha | next ha | initially ha | modal ha => simp [hread ha]
  | binary ha hb | temporal ha hb => simp [hread ha, hread hb]
  | dynamic hp ha => simp [hreadPath hp, hread ha]

theorem pathWithin_succ (hl : store.Legible) (h : store.Extends later) {node : PathNode}
    {p : Path} (hd : store.DenotesPath node p) {id : PathId}
    (hnode : later.pathNode? id = some node) :
    later.pathWithin (store.depth + 1) id = some p := by
  have hread : ∀ {g a}, store.idOf? g = some a → later.formulaWithin store.depth a = some g :=
    hl.formulaWithin h (Nat.le_refl _)
  have hreadPath : ∀ {q a}, store.pathIdOf? q = some a → later.pathWithin store.depth a = some q :=
    hl.pathWithin h (Nat.le_refl _)
  rw [Store.pathWithin, hnode]
  cases hd with
  | skip => rfl
  | test ha => simp [hread ha]
  | seq ha hb | choice ha hb => simp [hreadPath ha, hreadPath hb]
  | star ha => simp [hreadPath ha]

/-- Adding a node over old numbers keeps every number readable. -/
theorem add (hl : store.Legible) {node : Node} {f : Formula} (hd : store.Denotes node f) :
    (store.add node).2.Legible := by
  obtain ⟨hext, hfind⟩ := store.add_spec node
  have hnew : (store.add node).2.idOf? f = some (store.add node).1 :=
    idOf?_of_denotes (hd.mono hext) hfind
  have hclosed := hl.closed.add hd
  unfold Store.add at hext hfind hnew hclosed ⊢
  cases hfound : store.find? node with
  | some id => exact hl
  | none =>
    rw [hfound] at hext hfind hnew hclosed
    -- The one new number is the number of `f`, and everything else was there before.
    have hsplit : ∀ {id : FormulaId}, id.index < store.size + 1 →
        id.index < store.size ∨ id = ⟨store.size⟩ := by
      intro id hid
      rcases Nat.lt_succ_iff_lt_or_eq.1 hid with hlt | heq
      · exact .inl hlt
      · exact .inr (congrArg FormulaId.mk heq)
    have hsize : ({ store with nodes := store.nodes ++ [node] } : Store).size = store.size + 1 :=
      List.length_append
    have hdepth : store.depth + 1 ≤ ({ store with nodes := store.nodes ++ [node] } : Store).depth := by
      simp only [depth, List.length_append, List.length_singleton]
      omega
    refine ⟨hclosed, fun id hid => ?_, fun id hid => ?_, fun {g id} hg => ?_, fun {p id} hp => ?_⟩
    · rcases hsplit (hsize ▸ hid) with hlt | rfl
      · obtain ⟨g, hg⟩ := hl.owner id hlt
        exact ⟨g, idOf?_mono hext g hg⟩
      · exact ⟨f, hnew⟩
    · obtain ⟨p, hp⟩ := hl.ownerPath id hid
      exact ⟨p, pathIdOf?_mono hext p hp⟩
    · rcases hsplit (hsize ▸ idOf?_lt hg) with hlt | rfl
      · exact hl.formulaWithin hext hext.depth_le (idOf?_of_lt hl.closed hext g hg hlt)
      · rw [idOf?_injective g f hg hnew]
        exact formulaWithin_mono (.refl _) hdepth
          (hl.formulaWithin_succ hext hd (node?_of_find? hfind))
    · have hlt := pathIdOf?_lt hp
      exact hl.pathWithin hext hext.depth_le (pathIdOf?_of_lt hl.closed hext p hp hlt)

theorem addPath (hl : store.Legible) {node : PathNode} {p : Path}
    (hd : store.DenotesPath node p) : (store.addPath node).2.Legible := by
  obtain ⟨hext, hfind⟩ := store.addPath_spec node
  have hnew : (store.addPath node).2.pathIdOf? p = some (store.addPath node).1 :=
    pathIdOf?_of_denotes (hd.mono hext) hfind
  have hclosed := hl.closed.addPath hd
  unfold Store.addPath at hext hfind hnew hclosed ⊢
  cases hfound : store.findPath? node with
  | some id => exact hl
  | none =>
    rw [hfound] at hext hfind hnew hclosed
    have hsplit : ∀ {id : PathId}, id.index < (store.paths ++ [node]).length →
        id.index < store.paths.length ∨ id = ⟨store.paths.length⟩ := by
      intro id hid
      rw [List.length_append] at hid
      rcases Nat.lt_succ_iff_lt_or_eq.1 hid with hlt | heq
      · exact .inl hlt
      · exact .inr (congrArg PathId.mk heq)
    have hdepth : store.depth + 1 ≤ ({ store with paths := store.paths ++ [node] } : Store).depth := by
      simp only [depth, List.length_append, List.length_singleton]
      omega
    refine ⟨hclosed, fun id hid => ?_, fun id hid => ?_, fun {g id} hg => ?_, fun {q id} hq => ?_⟩
    · obtain ⟨g, hg⟩ := hl.owner id hid
      exact ⟨g, idOf?_mono hext g hg⟩
    · rcases hsplit hid with hlt | rfl
      · obtain ⟨q, hq⟩ := hl.ownerPath id hlt
        exact ⟨q, pathIdOf?_mono hext q hq⟩
      · exact ⟨p, hnew⟩
    · have hlt := idOf?_lt hg
      exact hl.formulaWithin hext hext.depth_le (idOf?_of_lt hl.closed hext g hg hlt)
    · rcases hsplit (pathIdOf?_lt hq) with hlt | rfl
      · exact hl.pathWithin hext hext.depth_le (pathIdOf?_of_lt hl.closed hext q hq hlt)
      · rw [pathIdOf?_injective q p hq hnew]
        exact pathWithin_mono (.refl _) hdepth
          (hl.pathWithin_succ hext hd (pathNode?_of_findPath? hfind))

mutual

/-- Interning keeps every number readable. -/
theorem intern : {store : Store} → store.Legible → (f : Formula) → (store.intern f).2.Legible
  | _, hl, .atom name args positive => hl.add (.atom name args positive)
  | _, hl, .bool value => hl.add (.bool value)
  | _, hl, .initial => hl.add .initial
  | _, hl, .final => hl.add .final
  | store, hl, .not arg => (hl.intern arg).add (.not (store.intern_spec arg).number)
  | store, hl, .previous arg _ => (hl.intern arg).add (.previous (store.intern_spec arg).number)
  | store, hl, .next arg _ => (hl.intern arg).add (.next (store.intern_spec arg).number)
  | store, hl, .initially arg => (hl.intern arg).add (.initially (store.intern_spec arg).number)
  | store, hl, .modal _ arg => (hl.intern arg).add (.modal (store.intern_spec arg).number)
  | store, hl, .binary _ lhs rhs =>
    have hr := (store.intern lhs).2.intern_spec rhs
    ((hl.intern lhs).intern rhs).add
      (.binary (idOf?_mono hr.grown lhs (store.intern_spec lhs).number) hr.number)
  | store, hl, .temporal _ lhs rhs =>
    have hr := (store.intern lhs).2.intern_spec rhs
    ((hl.intern lhs).intern rhs).add
      (.temporal (idOf?_mono hr.grown lhs (store.intern_spec lhs).number) hr.number)
  | store, hl, .dynamic _ path arg =>
    have ha := (store.internPath path).2.intern_spec arg
    ((hl.internPath path).intern arg).add
      (.dynamic (pathIdOf?_mono ha.grown path (store.internPath_spec path).number) ha.number)

/-- The same for paths. -/
theorem internPath : {store : Store} → store.Legible → (p : Path) →
    (store.internPath p).2.Legible
  | _, hl, .skip => hl.addPath .skip
  | store, hl, .test arg => (hl.intern arg).addPath (.test (store.intern_spec arg).number)
  | store, hl, .seq lhs rhs =>
    have hr := (store.internPath lhs).2.internPath_spec rhs
    ((hl.internPath lhs).internPath rhs).addPath
      (.seq (pathIdOf?_mono hr.grown lhs (store.internPath_spec lhs).number) hr.number)
  | store, hl, .choice lhs rhs =>
    have hr := (store.internPath lhs).2.internPath_spec rhs
    ((hl.internPath lhs).internPath rhs).addPath
      (.choice (pathIdOf?_mono hr.grown lhs (store.internPath_spec lhs).number) hr.number)
  | store, hl, .star body => (hl.internPath body).addPath (.star (store.internPath_spec body).number)

end

/-- Every operation keeps every number readable. -/
theorem growth (hl : store.Legible) (h : Growth store later) : later.Legible := by
  cases h with
  | intern f => exact hl.intern f
  | internPath p => exact hl.internPath p
  | add hadmits =>
    obtain ⟨f, hd⟩ := hl.exists_denotes hadmits
    exact hl.add hd
  | addPath hadmits =>
    obtain ⟨p, hd⟩ := hl.exists_denotesPath hadmits
    exact hl.addPath hd

theorem of_growth (h : Relation.ReflTransGen Growth empty store) : store.Legible := by
  induction h with
  | refl => exact legible_empty
  | tail _ hstep ih => exact ih.growth hstep

/-- Numbers with one reading are one number. -/
theorem formula?_injective (hl : store.Legible) {id other : FormulaId}
    (hid : id.index < store.size) (hother : other.index < store.size) :
    store.formula? id = store.formula? other ↔ id = other := by
  refine ⟨fun heq => ?_, fun heq => heq ▸ rfl⟩
  obtain ⟨f, hf⟩ := hl.owner id hid
  obtain ⟨g, hg⟩ := hl.owner other hother
  rw [hl.read hf, hl.read hg, Option.some_inj] at heq
  exact Option.some_inj.1 (hf.symm.trans (heq ▸ hg))

theorem path?_injective (hl : store.Legible) {id other : PathId}
    (hid : id.index < store.paths.length) (hother : other.index < store.paths.length) :
    store.path? id = store.path? other ↔ id = other := by
  refine ⟨fun heq => ?_, fun heq => heq ▸ rfl⟩
  obtain ⟨p, hp⟩ := hl.ownerPath id hid
  obtain ⟨q, hq⟩ := hl.ownerPath other hother
  rw [hl.readPath hp, hl.readPath hq, Option.some_inj] at heq
  exact Option.some_inj.1 (hp.symm.trans (heq ▸ hq))

/-- What is read from a number stays what it is. -/
theorem formula?_of_extends (hl : store.Legible) (h : store.Extends later) {id : FormulaId}
    (hid : id.index < store.size) : later.formula? id = store.formula? id := by
  obtain ⟨f, hf⟩ := hl.owner id hid
  rw [hl.read hf]
  exact hl.formulaWithin h h.depth_le hf

theorem path?_of_extends (hl : store.Legible) (h : store.Extends later) {id : PathId}
    (hid : id.index < store.paths.length) : later.path? id = store.path? id := by
  obtain ⟨p, hp⟩ := hl.ownerPath id hid
  rw [hl.readPath hp]
  exact hl.pathWithin h h.depth_le hp

end Legible

/-! ## Numbers and trees -/

/-- In every store that was grown from the empty one, numbers and trees correspond one
to one.  Reading a number ends, whatever bound from the depth of the store on is used;
the tree that is read has this number, and interning it again changes nothing;
different numbers have different trees; interning a tree gives a number that reads back
as this tree; the numbers given out are those in range; and no further operations
change what is read. -/
theorem canonical_of_growth {store : Store} (h : Relation.ReflTransGen Growth empty store) :
    (∀ id : FormulaId, id.index < store.size →
      ∃ f, (∀ n, store.depth ≤ n → store.formulaWithin n id = some f) ∧
        store.formula? id = some f ∧ store.intern f = (id, store)) ∧
    (∀ id : PathId, id.index < store.paths.length →
      ∃ p, (∀ n, store.depth ≤ n → store.pathWithin n id = some p) ∧
        store.path? id = some p ∧ store.internPath p = (id, store)) ∧
    (∀ id other : FormulaId, id.index < store.size → other.index < store.size →
      (store.formula? id = store.formula? other ↔ id = other)) ∧
    (∀ id other : PathId, id.index < store.paths.length → other.index < store.paths.length →
      (store.path? id = store.path? other ↔ id = other)) ∧
    (∀ f, (store.intern f).2.formula? (store.intern f).1 = some f) ∧
    (∀ p, (store.internPath p).2.path? (store.internPath p).1 = some p) ∧
    (∀ node, (store.add node).1.index < (store.add node).2.size) ∧
    (∀ node, (store.addPath node).1.index < (store.addPath node).2.paths.length) ∧
    ∀ later, Relation.ReflTransGen Growth store later →
      (∀ id : FormulaId, id.index < store.size → later.formula? id = store.formula? id) ∧
      ∀ id : PathId, id.index < store.paths.length → later.path? id = store.path? id := by
  have hl := Legible.of_growth h
  refine ⟨fun id hid => ?_, fun id hid => ?_, fun _ _ => hl.formula?_injective,
    fun _ _ => hl.path?_injective, fun f => ?_, fun p => ?_, store.add_lt, store.addPath_lt,
    fun later hlater => ?_⟩
  · obtain ⟨f, hf⟩ := hl.owner id hid
    exact ⟨f, fun n hn => hl.formulaWithin (.refl store) hn hf, hl.read hf, intern_of_idOf? f hf⟩
  · obtain ⟨p, hp⟩ := hl.ownerPath id hid
    exact ⟨p, fun n hn => hl.pathWithin (.refl store) hn hp, hl.readPath hp,
      internPath_of_pathIdOf? p hp⟩
  · exact (hl.intern f).read (store.intern_spec f).number
  · exact (hl.internPath p).readPath (store.internPath_spec p).number
  · have hext := extends_of_growth hlater
    exact ⟨fun _ => hl.formula?_of_extends hext, fun _ => hl.path?_of_extends hext⟩

/-- A store in which a dynamic formula was built over the numbers of its parts: the
whole, its path and the test inside it read back. -/
theorem canonical_of_growth_dynamic :
    let arg : Formula := .atom "p" [] true
    let path : Path := .star (.seq (.test arg) .skip)
    let parts := ((empty.intern arg).2.internPath path).2
    let store := (parts.add (.dynamic .box ⟨3⟩ ⟨0⟩)).2
    (parts.Admits (.dynamic .box ⟨3⟩ ⟨0⟩) ∧ Relation.ReflTransGen Growth empty store) ∧
      store.formula? ⟨1⟩ = some (.dynamic .box path arg) ∧
      ∃ f, (∀ n, store.depth ≤ n → store.formulaWithin n ⟨1⟩ = some f) ∧
        store.formula? ⟨1⟩ = some f ∧ store.intern f = (⟨1⟩, store) := by
  intro arg path parts store
  have hadmits : parts.Admits (.dynamic .box ⟨3⟩ ⟨0⟩) := by
    refine ⟨fun id hid => ?_, fun id hid => ?_⟩
    · rw [List.mem_singleton.1 hid]
      decide
    · rw [List.mem_singleton.1 hid]
      decide
  have hgrown : Relation.ReflTransGen Growth empty store :=
    ((Relation.ReflTransGen.single (.intern empty arg)).tail (.internPath _ path)).tail
      (.add hadmits)
  exact ⟨⟨hadmits, hgrown⟩, by decide, (canonical_of_growth hgrown).1 ⟨1⟩ (by decide)⟩

end Store
end TemporalHorizon
