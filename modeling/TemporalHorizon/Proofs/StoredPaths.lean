import TemporalHorizon.Proofs.Exclusion
import TemporalHorizon.Proofs.Refusals
import TemporalHorizon.Proofs.Repetition
import TemporalHorizon.Proofs.Settling

/-!
# Checks of paths where they are stored

A store keeps a path as a node over the numbers of its parts, and asks there whether it is
nullable and whether it is in normal form: a test is compared with the constant false by
looking at its node, and shared parts are visited by number.  These checks and the checks of
trees are written down independently, and this module shows that they agree.

The checks of a store go along chains of references of bounded length and would say no at
the end of the bound.  Reading a path back goes along the same chains, so a path that can be
read within a bound is checked within it.

* `Store.ReadsPath`: a node and the tree that is read from it, by cases.
* `Store.nullableWithin_eq`, `Store.Legible.normalWithin_eq`: a path that has been read is
  checked like its tree.
* `Fair`: a computation that blames a path only if the check of the blamed formula does.
  `Fair.encode` says so of every request, following the definitions of the encoder.
* `Encoder.encode_malformed_iff`: the encoder refuses a dynamic formula for its own path
  exactly if the path is not in normal form.
* `Store.checks_eq_of_growth`: the statement for all stores and all that can occur to an
  encoder.
-/

namespace TemporalHorizon

section Exact

attribute [local instance] Arithmetic.exact

namespace Store

variable {store : Store}

/-! ## Reading and checking -/

/-- A path node and the tree that is read from it, where the parts are read along chains of
at most the given length. -/
inductive ReadsPath (store : Store) (n : Nat) : PathNode → Path → Prop
  | skip : ReadsPath store n .skip .skip
  | test {a arg} : store.formulaWithin n a = some arg → ReadsPath store n (.test a) (.test arg)
  | seq {a b first second} : store.pathWithin n a = some first →
    store.pathWithin n b = some second → ReadsPath store n (.seq a b) (.seq first second)
  | choice {a b lhs rhs} : store.pathWithin n a = some lhs → store.pathWithin n b = some rhs →
    ReadsPath store n (.choice a b) (.choice lhs rhs)
  | star {a body} : store.pathWithin n a = some body → ReadsPath store n (.star a) (.star body)

/-- A path is read from its node. -/
theorem exists_readsPath {n : Nat} {id : PathId} {path : Path}
    (h : store.pathWithin (n + 1) id = some path) :
    ∃ node, store.pathNode? id = some node ∧ store.ReadsPath n node path := by
  rw [pathWithin] at h
  cases hnode : store.pathNode? id with
  | none =>
    rw [hnode] at h
    cases h
  | some node =>
    rw [hnode] at h
    refine ⟨node, rfl, ?_⟩
    cases node with
    | skip =>
      cases h
      exact .skip
    | test a =>
      obtain ⟨arg, harg, h⟩ := Option.bind_eq_some_iff.1 h
      cases h
      exact .test harg
    | seq a b =>
      obtain ⟨first, hfirst, h⟩ := Option.bind_eq_some_iff.1 h
      obtain ⟨second, hsecond, h⟩ := Option.bind_eq_some_iff.1 h
      cases h
      exact .seq hfirst hsecond
    | choice a b =>
      obtain ⟨lhs, hlhs, h⟩ := Option.bind_eq_some_iff.1 h
      obtain ⟨rhs, hrhs, h⟩ := Option.bind_eq_some_iff.1 h
      cases h
      exact .choice hlhs hrhs
    | star a =>
      obtain ⟨body, hbody, h⟩ := Option.bind_eq_some_iff.1 h
      cases h
      exact .star hbody

/-- The constant that a formula is shows in its node. -/
theorem node?_eq_bool_iff {n : Nat} {id : FormulaId} {f : Formula} (value : Bool)
    (h : store.formulaWithin n id = some f) :
    store.node? id = some (.bool value) ↔ f = .bool value := by
  cases n with
  | zero =>
    rw [formulaWithin] at h
    cases h
  | succ n =>
    rw [formulaWithin] at h
    cases hnode : store.node? id with
    | none =>
      rw [hnode] at h
      cases h
    | some node =>
      rw [hnode] at h
      cases node with
      | atom _ _ _ | bool _ | initial | final =>
        cases h
        simp
      | not _ | previous _ _ | next _ _ | initially _ | modal _ _ =>
        obtain ⟨_, _, h⟩ := Option.bind_eq_some_iff.1 h
        cases h
        simp
      | binary _ _ _ | temporal _ _ _ | dynamic _ _ _ =>
        obtain ⟨_, _, h⟩ := Option.bind_eq_some_iff.1 h
        obtain ⟨_, _, h⟩ := Option.bind_eq_some_iff.1 h
        cases h
        simp

/-- A path that has been read is nullable where it is stored exactly if its tree is. -/
theorem nullableWithin_eq {n : Nat} {id : PathId} {path : Path}
    (h : store.pathWithin n id = some path) : store.nullableWithin n id = path.isNullable := by
  induction n generalizing id path with
  | zero =>
    rw [pathWithin] at h
    cases h
  | succ n ih =>
    obtain ⟨node, hnode, hreads⟩ := exists_readsPath h
    rw [nullableWithin, hnode]
    cases hreads with
    | skip | test _ | star _ => rfl
    | seq hfirst hsecond | choice hfirst hsecond =>
      simp only [Path.isNullable, ih hfirst, ih hsecond]

namespace Legible

/-- Whatever has been read from a number is its tree. -/
theorem path?_of_pathWithin (hl : store.Legible) {n : Nat} {id : PathId} {path : Path}
    (h : store.pathWithin n id = some path) : store.path? id = some path := by
  have hid : id.index < store.paths.length := by
    cases n with
    | zero =>
      rw [Store.pathWithin] at h
      cases h
    | succ n =>
      obtain ⟨node, hnode, -⟩ := exists_readsPath h
      exact (List.getElem?_eq_some_iff.1 hnode).1
  obtain ⟨other, hother⟩ := hl.ownerPath id hid
  have hread := hl.pathWithin (.refl store) (Nat.le_max_right n store.depth) hother
  have hsame := pathWithin_mono (.refl store) (Nat.le_max_left n store.depth) h
  rw [← Option.some_inj.1 (hread.symm.trans hsame)]
  exact hl.readPath hother

/-- A path that has been read is in normal form where it is stored exactly if its tree is. -/
theorem normalWithin_eq (hl : store.Legible) {n : Nat} {id : PathId} {path : Path}
    (h : store.pathWithin n id = some path) : store.normalWithin n id = path.isNormal := by
  induction n generalizing id path with
  | zero =>
    rw [Store.pathWithin] at h
    cases h
  | succ n ih =>
    obtain ⟨node, hnode, hreads⟩ := exists_readsPath h
    rw [normalWithin, hnode]
    cases hreads with
    | skip => rfl
    | test harg =>
      have hbool := node?_eq_bool_iff false harg
      rw [Path.isNormal, Bool.eq_iff_iff, bne_iff_ne, bne_iff_ne]
      exact not_congr hbool
    | seq hfirst hsecond | choice hfirst hsecond =>
      simp only [Path.isNormal, ih hfirst, ih hsecond]
    | @star _ body hbody =>
      -- The body is asked whether it is nullable along chains of any length.
      have hnullable : store.isNullable _ = body.isNullable :=
        nullableWithin_eq (hl.path?_of_pathWithin hbody)
      simp only [Path.isNormal, hnullable, ih hbody]

/-- The checks of a stored path are those of its tree. -/
theorem checks_eq (hl : store.Legible) {id : PathId} {path : Path}
    (hid : store.pathIdOf? path = some id) :
    store.isNullable id = path.isNullable ∧ store.isNormal id = path.isNormal :=
  ⟨nullableWithin_eq (hl.readPath hid), hl.normalWithin_eq (hl.readPath hid)⟩

end Legible
end Store

/-! ## Refusals -/

/-- A dynamic formula is refused for its own path exactly if that is not in normal form. -/
theorem validate_dynamic_iff (stage : Stage) (modality : Modality) (path : Path) (arg : Formula) :
    validate stage (.dynamic modality path arg) =
        .error (.malformedPath (.dynamic modality path arg) path) ↔
      path.isNormal = false := by
  unfold validate
  constructor
  · intro h
    split at h
    · next blamed hblamed =>
      rw [Formula.malformedPath?_eq_find?] at hblamed
      cases h
      simpa using List.find?_some hblamed
    · split at h <;> cases h
  · intro h
    rw [Formula.malformedPath?, h]
    rfl

/-- A failure is warranted unless it blames a path for a formula that the check of the formula
would not blame for it. -/
def Failure.Warranted : Failure → Prop
  | .violation (.malformedPath f path) =>
    ∀ stage, validate stage f = .error (.malformedPath f path)
  | _ => True

/-- All failures of a computation are warranted. -/
def Fair {α : Type} (x : Encode α) : Prop :=
  ∀ e failure after, x e = .error failure after → failure.Warranted

namespace Fair

variable {α β : Type}

theorem pure (a : α) : Fair (pure a : Encode α) := nofun

theorem get : Fair (get : Encode Encoder) := nofun

theorem modifyGet (g : Encoder → α × Encoder) : Fair (modifyGet g : Encode α) := nofun

theorem modify (g : Encoder → Encoder) : Fair (modify g : Encode PUnit) := modifyGet _

theorem refuse {cause : Violation} (h : (Failure.violation cause).Warranted) :
    Fair (Encoder.refuse cause : Encode α) := by
  intro e failure after herror
  cases herror
  exact h

theorem collapse (cause : Fault) : Fair (Encoder.collapse cause : Encode α) := by
  intro e failure after herror
  cases herror
  exact trivial

theorem bind {x : Encode α} {next : α → Encode β} (hx : Fair x) (hn : ∀ a, Fair (next a)) :
    Fair (x >>= next) := by
  intro e failure after herror
  cases hfirst : x e with
  | ok a middle =>
    rw [bind_ok hfirst] at herror
    exact hn a middle failure after herror
  | error failure' middle =>
    rw [bind_error hfirst] at herror
    cases herror
    exact hx e failure after hfirst

theorem map {x : Encode α} (g : α → β) (hx : Fair x) : Fair (g <$> x) := bind hx fun _ => pure _

theorem forM {xs : List α} {action : α → Encode PUnit} (h : ∀ x, Fair (action x)) :
    Fair (xs.forM action) := by
  induction xs with
  | nil => exact pure _
  | cons x xs ih => exact bind (h x) fun _ => ih

theorem emit (rule : Rule) : Fair (Encoder.emit rule) := modify _

theorem emitAll (rules : List Rule) : Fair (Encoder.emitAll rules) := forM emit

theorem keyOf (f : Formula) (step : Nat) : Fair (Encoder.keyOf f step) :=
  bind (modifyGet _) fun _ => pure _

theorem define (key : Key) : Fair (Encoder.define key) := by
  refine bind (modifyGet _) fun _ => bind ?_ fun _ => bind (emit _) fun _ => pure _
  unfold Encoder.checkNew
  split
  · exact pure _
  · exact collapse _

theorem share (key : Key) (lit : Lit) : Fair (Encoder.share key lit) := by
  refine bind get fun e => ?_
  split
  · exact collapse _
  · refine bind (modify _) fun _ => ?_
    split
    · exact bind (bind (emit _) fun _ => emitAll _) fun _ => pure _
    · exact pure _

theorem groundAtom (f : Formula) (step : Nat) : Fair (Encoder.groundAtom f step) := by
  refine bind (keyOf f step) fun key => bind get fun e => ?_
  split
  · exact pure _
  · refine bind (modifyGet _) fun lit => bind (bind get fun e => ?_) fun _ =>
      bind (bind get fun e => ?_) fun _ => pure _
    · split
      · exact collapse _
      · exact modify _
    · split
      · exact emit _
      · exact pure _

/-- The check of a path blames none that is in normal form. -/
theorem checkPath (modality : Modality) (path : Path) (arg : Formula) :
    Fair (Encoder.checkPath (.dynamic modality path arg) path) := by
  unfold Encoder.checkPath
  cases hpath : path.isNormal with
  | true => exact pure _
  | false => exact refuse fun stage => (validate_dynamic_iff stage modality path arg).2 hpath

section Answers

variable {rec : Encoder.Encoding} {window : Window}

theorem encodeFixpoint (h : ∀ window f step, Fair (rec window f step)) (f : Formula) (key : Key)
    (op : Fixpoint) (lhs : Option Formula) (rhs : Formula) :
    Fair (Encoder.encodeFixpoint rec window f key op lhs rhs) := by
  refine bind (h _ _ _) fun right => bind ?_ fun adjacent => ?_
  · unfold Encoder.encodeAdjacent
    split
    · exact map _ (h _ _ _)
    · split
      · exact map _ (h _ _ _)
      · exact pure _
  · split
    · exact share _ _
    · refine bind ?_ fun left => bind (define _) fun x => bind (emitAll _) fun _ => pure _
      cases lhs with
      | none => exact pure _
      | some lhs => exact h _ _ _

theorem encodeNew (h : ∀ window f step, Fair (rec window f step)) (f : Formula) (key : Key) :
    Fair (Encoder.encodeNew rec window f key) := by
  unfold Encoder.encodeNew
  dsimp only
  split
  · exact groundAtom _ _
  · exact share _ _
  · exact share _ _
  · split
    · exact share _ _
    · split
      · exact share _ _
      · exact bind (h _ _ _) fun _ => share _ _
  · exact bind (h _ _ _) fun _ => share _ _
  · exact bind (h _ _ _) fun _ => bind (h _ _ _) fun _ => bind (define _) fun _ =>
      bind (emitAll _) fun _ => pure _
  · split
    · exact bind (h _ _ _) fun _ => share _ _
    · exact share _ _
  · refine bind ?_ fun _ => ?_
    · unfold Encoder.checkAhead
      split
      · exact pure _
      · exact refuse trivial
    · split
      · exact bind (h _ _ _) fun _ => share _ _
      · exact bind (modifyGet _) fun _ => bind (modify _) fun _ => pure _
      · exact share _ _
      · exact share _ _
  · exact bind (h _ _ _) fun _ => share _ _
  · exact encodeFixpoint h _ _ _ _ _
  · exact encodeFixpoint h _ _ _ _ _
  · exact bind (checkPath _ _ _) fun _ => bind (h _ _ _) fun _ => share _ _

theorem encodeStep (h : ∀ window f step, Fair (rec window f step)) (f : Formula) (step : Nat) :
    Fair (Encoder.encodeStep rec window f step) := by
  refine bind ?_ fun _ => ?_
  · rcases Nat.lt_or_ge window.horizon step with hs | hs
    · rw [Encoder.checkStep_of_lt hs]
      exact refuse trivial
    · rw [Encoder.checkStep_of_le hs]
      exact pure _
  · split
    · exact groundAtom _ _
    · refine bind (keyOf _ _) fun key => bind (modifyGet _) fun lit => ?_
      split
      · exact pure _
      · exact encodeNew h _ _

end Answers

/-- A request blames a path only for a formula that the check would refuse for it. -/
theorem encode (window : Window) (f : Formula) (step : Nat) :
    Fair (Encoder.encode window f step) := by
  have hwithin : ∀ depth window f step, Fair (Encoder.encodeWithin depth window f step) := by
    intro depth
    induction depth with
    | zero => exact fun _ _ _ => collapse _
    | succ depth ih => exact fun _ f step => encodeStep ih f step
  exact bind (modifyGet _) fun _ => hwithin _ _ _ _

end Fair

namespace Encoder

variable {e : Encoder} {modality : Modality} {path : Path} {arg : Formula} {window : Window}
  {step : Nat}

/-- The encoder refuses a dynamic formula for its own path exactly if the path is not in
normal form. -/
theorem encode_malformed_iff (h : e.Fit) (hs : step ≤ window.horizon) :
    (∃ after, encode window (.dynamic modality path arg) step e =
        .error (.violation (.malformedPath (.dynamic modality path arg) path)) after) ↔
      path.isNormal = false := by
  constructor
  · rintro ⟨after, herror⟩
    have hwarranted := Fair.encode window _ step e _ after herror .always
    exact (validate_dynamic_iff .always modality path arg).1 hwarranted
  · intro hpath
    let f := Formula.dynamic modality path arg
    have hfit := h.of_follows (numbered_follows [] h.toTidy f) rfl
    obtain ⟨depth, hdepth⟩ : ∃ depth, f.unfoldDepth window.horizon = depth + 1 :=
      Nat.exists_eq_add_one.2 (f.unfoldDepth_pos window.horizon)
    refine ⟨_, Eq.trans ?_ (encodeStep_malformed (encodeWithin depth) hfit hpath hs)⟩
    unfold encode
    rw [bind_ok (register_ok e f), hdepth]
    rfl

/-! ## Everything that can occur -/

/-- What an operation does to the store is to grow it. -/
theorem Turn.growth {after : Encoder} (h : Turn e after) :
    Relation.ReflTransGen Store.Growth e.store after.store := by
  cases h with
  | change hchange =>
    cases hchange with
    | number f => exact .single (.intern e.store f)
    | _ => exact .refl
  | numberPath path => exact .single (.internPath e.store path)
  | _ => exact .refl

end Encoder

namespace Chronicle

variable {c : Chronicle}

theorem growth_of_occurs (h : Relation.ReflTransGen Occurs {} c) :
    Relation.ReflTransGen Store.Growth Store.empty c.encoder.store := by
  induction h with
  | refl => exact .refl
  | @tail before after _ hlast ih =>
    cases hlast with
    | @perform operation _ =>
      have hturns := operation.turns before.encoder
      exact ih.trans (hturns.lift' Encoder.store fun _ _ => Encoder.Turn.growth)
    | grow hgrowth => exact ih.tail hgrowth

theorem fit_of_occurs (h : Relation.ReflTransGen Occurs {} c) : c.encoder.Fit := by
  induction h with
  | refl => exact Encoder.fit_empty
  | @tail before after hbefore hlast ih =>
    cases hlast with
    | @perform operation _ => exact Encoder.Operation.fit ih operation
    | grow hgrowth =>
      have hclosed := (Store.Legible.of_growth ((growth_of_occurs hbefore).tail hgrowth)).closed
      exact ih.of_follows (ih.toTidy.follows_store [] hgrowth.extends hclosed) rfl

end Chronicle

theorem Store.checks_eq {store : Store}
    (h : Relation.ReflTransGen Store.Growth Store.empty store) {c : Chronicle}
    (hc : Relation.ReflTransGen Chronicle.Occurs {} c) :
    (∀ id : PathId, id.index < store.paths.length → ∃ path, store.path? id = some path ∧
      store.isNullable id = path.isNullable ∧ store.isNormal id = path.isNormal ∧
      ∀ n, store.depth ≤ n → store.nullableWithin n id = path.isNullable ∧
        store.normalWithin n id = path.isNormal) ∧
    (∀ path : Path,
      (store.internPath path).2.isNullable (store.internPath path).1 = path.isNullable ∧
      (store.internPath path).2.isNormal (store.internPath path).1 = path.isNormal) ∧
    ∀ (modality : Modality) (path : Path) (arg : Formula),
      let f := Formula.dynamic modality path arg
      let numbered := (c.encoder.store.intern f).2
      ∃ id argId, numbered.node? (c.encoder.store.intern f).1 = some (.dynamic modality id argId) ∧
        numbered.path? id = some path ∧
        (∀ stage, validate stage f = .error (.malformedPath f path) ↔
          numbered.isNormal id = false) ∧
        ∀ window step, step ≤ window.horizon →
          ((∃ after, Encoder.encode window f step c.encoder =
            .error (.violation (.malformedPath f path)) after) ↔ numbered.isNormal id = false) := by
  have hl := Legible.of_growth h
  refine ⟨fun id hid => ?_, fun path => ?_, fun modality path arg => ?_⟩
  · obtain ⟨path, hpath⟩ := hl.ownerPath id hid
    obtain ⟨hnullable, hnormal⟩ := hl.checks_eq hpath
    refine ⟨path, hl.readPath hpath, hnullable, hnormal, fun n hn => ?_⟩
    have hread := hl.pathWithin (.refl store) hn hpath
    exact ⟨nullableWithin_eq hread, hl.normalWithin_eq hread⟩
  · exact (hl.internPath path).checks_eq (store.internPath_spec path).number
  · intro f numbered
    have hfit := Chronicle.fit_of_occurs hc
    have hlegible : numbered.Legible :=
      (Legible.of_growth (Chronicle.growth_of_occurs hc)).intern f
    obtain ⟨node, hfind, hdenotes⟩ :
        ∃ node, numbered.find? node = some (c.encoder.store.intern f).1 ∧
          numbered.Denotes node (.dynamic modality path arg) :=
      exists_denotes (c.encoder.store.intern_spec f).number
    cases hdenotes with
    | dynamic hpath harg =>
      obtain ⟨-, hnormal⟩ := hlegible.checks_eq hpath
      refine ⟨_, _, node?_of_find? hfind, hlegible.readPath hpath, fun stage => ?_,
        fun window step hs => ?_⟩
      · rw [hnormal]
        exact validate_dynamic_iff stage modality path arg
      · rw [hnormal]
        exact Encoder.encode_malformed_iff hfit hs

end Exact

/-- **The checks of stored paths are those of their trees.**  In every store that was grown
from the empty one, each number of a path reads back as a path, and it is nullable or in
normal form where it is stored exactly if that path is; the lengths of the chains along which
the store is searched do not matter.  In particular this holds of the number that a path has
just been given.  Whatever has occurred to an encoder, the node of a dynamic formula refers
to the number of its path, and the following are the same: the path is not in normal form
where it is stored, the check of the formula blames it, and so does the encoder when it is
asked for the formula at a step that has been reached.  The encoder must be in range after it. -/
theorem Store.checks_eq_of_growth [Arithmetic] {store : Store}
    (h : Relation.ReflTransGen Store.Growth Store.empty store) {c : Chronicle}
    (hc : Relation.ReflTransGen Chronicle.Occurs {} c) (hrange : c.encoder.InRange) :
    (∀ id : PathId, id.index < store.paths.length → ∃ path, store.path? id = some path ∧
      store.isNullable id = path.isNullable ∧ store.isNormal id = path.isNormal ∧
      ∀ n, store.depth ≤ n → store.nullableWithin n id = path.isNullable ∧
        store.normalWithin n id = path.isNormal) ∧
    (∀ path : Path,
      (store.internPath path).2.isNullable (store.internPath path).1 = path.isNullable ∧
      (store.internPath path).2.isNormal (store.internPath path).1 = path.isNormal) ∧
    ∀ (modality : Modality) (path : Path) (arg : Formula),
      let f := Formula.dynamic modality path arg
      let numbered := (c.encoder.store.intern f).2
      ∃ id argId, numbered.node? (c.encoder.store.intern f).1 = some (.dynamic modality id argId) ∧
        numbered.path? id = some path ∧
        (∀ stage, validate stage f = .error (.malformedPath f path) ↔
          numbered.isNormal id = false) ∧
        ∀ window step, window.InRange → step ≤ window.horizon →
          (stateAfter (Encoder.encode window f step) c.encoder).InRange →
          ((∃ after, Encoder.encode window f step c.encoder =
            .error (.violation (.malformedPath f path)) after) ↔ numbered.isNormal id = false) := by
  obtain ⟨hstored, hinterned, hencoder⟩ := Store.checks_eq h (Chronicle.occurs_exact hc hrange)
  refine ⟨hstored, hinterned, fun modality path arg => ?_⟩
  obtain ⟨id, argId, hnode, hpath, hvalidate, hencode⟩ := hencoder modality path arg
  refine ⟨id, argId, hnode, hpath, hvalidate, fun window step hw hs hafter => ?_⟩
  rw [(Agrees.encode hw _ step).agree c.encoder (Nat.zero_le _) (.inl hafter)]
  exact hencode window step hs

/-- A star over a test is built over the number of the test.  It is not in normal form where
it is stored, and a formula over the same path is refused by an encoder that has met the test
before. -/
theorem Store.checks_eq_of_growth_star :
    let p := Formula.atom "p" [] true
    let parts := (Store.empty.internPath (.test p)).2
    let store := (parts.addPath (.star ⟨0⟩)).2
    let now : Window := ⟨0, false, .always⟩
    let c : Chronicle := [Encoder.Operation.numberPath (.test p), .encode now p 0].foldl
      Chronicle.perform {}
    let f := Formula.dynamic .box (.star (.test p)) p
    (Relation.ReflTransGen Store.Growth Store.empty store ∧
      Relation.ReflTransGen Chronicle.Occurs {} c ∧ c.encoder.InRange ∧
      (stateAfter (Encoder.encode now f 0) c.encoder).InRange) ∧
      store.path? ⟨1⟩ = some (.star (.test p)) ∧ store.isNullable ⟨1⟩ = true ∧
      store.isNormal ⟨1⟩ = false ∧
      ∃ after, Encoder.encode now f 0 c.encoder =
        .error (.violation (.malformedPath f (.star (.test p)))) after := by
  intro p parts store now c f
  have hadmits : parts.AdmitsPath (.star ⟨0⟩) := by
    refine ⟨nofun, fun id hid => ?_⟩
    rw [List.mem_singleton.1 hid]
    decide
  have hgrown : Relation.ReflTransGen Store.Growth Store.empty store :=
    (Relation.ReflTransGen.single (.internPath Store.empty (.test p))).tail (.addPath hadmits)
  have hoccurs : Relation.ReflTransGen Chronicle.Occurs {} c := Chronicle.occurs_foldl (by decide) {}
  have hread : store.path? ⟨1⟩ = some (.star (.test p)) := by decide
  have hrange : c.encoder.InRange := by decide +kernel
  have hafter : (stateAfter (Encoder.encode now f 0) c.encoder).InRange := by decide +kernel
  obtain ⟨hstored, -, hencoder⟩ := Store.checks_eq_of_growth hgrown hoccurs hrange
  obtain ⟨path, hpath, hnullable, hnormal, -⟩ := hstored ⟨1⟩ (by decide)
  rw [hread] at hpath
  cases hpath
  obtain ⟨id, argId, -, -, hvalidate, hencode⟩ := hencoder .box (.star (.test p)) p
  refine ⟨⟨hgrown, hoccurs, hrange, hafter⟩, hread, hnullable, hnormal, ?_⟩
  have hnow : now.InRange := by decide
  exact (hencode now 0 hnow (Nat.le_refl 0) hafter).2 ((hvalidate .always).1 (by decide))

end TemporalHorizon
