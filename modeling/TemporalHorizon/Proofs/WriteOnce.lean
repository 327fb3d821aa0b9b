import TemporalHorizon.Proofs.Ledger
import Mathlib.Logic.Function.Basic

/-!
# The cache is a write-once map on pairs

The cache keeps two tables on packed numbers, and three of its operations write
entries.  The reference for it is a board with one cell for each pair of a formula
and a step: a cell is blank, or holds a host literal that waits, or holds the literal
of the pair for good.  Calls to the cache may come in any order, and others may take
atoms from the supply in between.  Pairs are kept apart by their numbers as long as these are
exact, so all calls are about pairs in range.

* `Cache.Cell.serve`: what a call returns, and what it leaves in the cell of its pair.
* `Cache.Desk.Shows.perform`: a call to the cache is the call to a board that it shows.
* `Cache.Board.settled_run`, `Cache.Board.bound_run`, `Cache.Board.unsettled_run`: what
  becomes of a cell, and how often its pair is given a first representative meanwhile.
* `Cache.replies_eq_and_writeOnce`: the replies to any calls are those of the board, with
  all that follows for single pairs.
-/

namespace TemporalHorizon

namespace Cache

/-! ## Calls and replies -/

/-- What can be asked about a pair. -/
inductive Question where
  | get
  | getOrCreate
  | share (lit : Lit)
  | bind (host : Lit)

/-- What is asked of a cache and the supply beside it. -/
inductive Call where
  | about (key : Key) (question : Question)
  /-- Someone else takes an atom from the supply. -/
  | allocate

/-- What is returned for a call. -/
inductive Reply where
  | found (lit : Option Lit)
  | created (lit : Lit) (isNew : Bool)
  | shared (lit : Lit) (isHost : Bool)
  | bound (accepted : Bool)
  | failed (fault : Fault)
  | allocated (lit : Lit)

/-- The pair that a call is about is in range. -/
def Call.InRange [Arithmetic] : Call → Prop
  | about key _ => key.InRange
  | allocate => True

instance [Arithmetic] : DecidablePred Call.InRange
  | .about key _ => inferInstanceAs (Decidable key.InRange)
  | .allocate => inferInstanceAs (Decidable True)

/-- The call is about the pair. -/
def Call.isAbout (key : Key) : Call → Bool
  | about other _ => other = key
  | allocate => false

/-- The literal that the reply reports as the first representative of the pair. -/
def Reply.first? : Reply → Option Lit
  | created lit isNew => if isNew then some lit else none
  | shared lit _ => some lit
  | _ => none

/-- The reply reports that the literal of the pair was created just now. -/
def Reply.isNew : Reply → Bool
  | created _ isNew => isNew
  | _ => false

theorem Reply.isSome_first? {reply : Reply} (h : reply.isNew = true) :
    reply.first?.isSome = true := by
  cases reply with
  | created lit new =>
    obtain rfl : new = true := h
    rfl
  | _ => cases h

section Runs

variable {σ τ : Type}

/-- The calls with their replies. -/
def log (perform : σ → Call → Reply × σ) : σ → List Call → List (Call × Reply)
  | _, [] => []
  | state, call :: calls =>
    (call, (perform state call).1) :: log perform (perform state call).2 calls

/-- The state after some calls. -/
def after (perform : σ → Call → Reply × σ) (state : σ) (calls : List Call) : σ :=
  calls.foldl (fun state call => (perform state call).2) state

/-- States that are related stay so, and give the same replies, through calls of which this is
known one by one. -/
theorem log_related {perform : σ → Call → Reply × σ} {perform' : τ → Call → Reply × τ}
    {related : σ → τ → Prop} {allowed : Call → Prop}
    (h : ∀ state state' call, related state state' → allowed call →
      (perform' state' call).1 = (perform state call).1 ∧
        related (perform state call).2 (perform' state' call).2)
    {state : σ} {state' : τ} (hstart : related state state') {calls : List Call}
    (hcalls : ∀ call ∈ calls, allowed call) :
    log perform' state' calls = log perform state calls ∧
      related (after perform state calls) (after perform' state' calls) := by
  induction calls generalizing state state' with
  | nil => exact ⟨rfl, hstart⟩
  | cons call calls ih =>
    obtain ⟨hreply, hnext⟩ := h state state' call hstart (hcalls call List.mem_cons_self)
    obtain ⟨hlog, hafter⟩ := ih hnext fun later hlater =>
      hcalls later (List.mem_cons_of_mem call hlater)
    exact ⟨by rw [log, log, hreply, hlog], hafter⟩

end Runs

/-- The first representatives that a log reports for a pair. -/
def firsts (key : Key) (log : List (Call × Reply)) : List Lit :=
  (log.filter fun record => record.1.isAbout key).filterMap fun record => record.2.first?

/-! ## The reference -/

/-- What is known of a pair. -/
inductive Cell where
  | blank
  /-- A host literal waits for the pair to be represented. -/
  | bound (host : Lit)
  /-- The pair has its representative. -/
  | settled (lit : Lit)
  deriving DecidableEq

/-- What a call about a pair returns, what it leaves in the cell, and whether it takes
the next atom of the supply. -/
structure Outcome where
  reply : Reply
  cell : Cell
  takes : Bool := false

/-- The outcome of a question about a pair; `fresh` is the next atom of the supply. -/
def Cell.serve (key : Key) (fresh : Lit) : Cell → Question → Outcome
  | blank, .get => { reply := .found none, cell := blank }
  | blank, .getOrCreate => { reply := .created fresh true, cell := settled fresh, takes := true }
  | blank, .share lit => { reply := .shared lit false, cell := settled lit }
  | blank, .bind host => { reply := .bound true, cell := bound host }
  | bound host, .get => { reply := .found none, cell := bound host }
  | bound host, .getOrCreate => { reply := .created host true, cell := settled host }
  | bound host, .share _ => { reply := .shared host true, cell := settled host }
  | bound host, .bind _ => { reply := .bound false, cell := bound host }
  | settled lit, .get => { reply := .found (some lit), cell := settled lit }
  | settled lit, .getOrCreate => { reply := .created lit false, cell := settled lit }
  | settled lit, .share _ => { reply := .failed (.entryTwice key), cell := settled lit }
  | settled lit, .bind _ => { reply := .bound false, cell := settled lit }

/-- The representative of the pair. -/
def Cell.lit? : Cell → Option Lit
  | settled lit => some lit
  | _ => none

/-- The host literal that waits for the pair. -/
def Cell.host? : Cell → Option Lit
  | bound host => some host
  | _ => none

/-- The first representative that is reported for a pair is the one left in its cell. -/
theorem Cell.first?_serve {key : Key} {fresh : Lit} {cell : Cell} {question : Question}
    (h : cell.lit? = none) :
    (cell.serve key fresh question).reply.first? = (cell.serve key fresh question).cell.lit? := by
  cases cell with
  | settled lit => cases h
  | blank | bound _ => cases question <;> rfl

/-- One cell for each pair, and the supply. -/
structure Board where
  cell : Key → Cell
  supply : Supply

section Boards

variable [Arithmetic]

namespace Board

/-- What a call returns and leaves. -/
def perform (board : Board) : Call → Reply × Board
  | .about key question =>
    let outcome := (board.cell key).serve key board.supply.fresh.1 question
    (outcome.reply,
      { cell := Function.update board.cell key outcome.cell
        supply := if outcome.takes then board.supply.fresh.2 else board.supply })
  | .allocate => (.allocated board.supply.fresh.1, { board with supply := board.supply.fresh.2 })

variable {board : Board} {key : Key}

/-- A call changes no cell but that of its own pair. -/
theorem perform_cell_of_not_about {call : Call} (h : call.isAbout key = false) :
    (board.perform call).2.cell key = board.cell key := by
  cases call with
  | allocate => rfl
  | about other question =>
    have hne : key ≠ other := by
      rintro rfl
      simp [Call.isAbout] at h
    exact Function.update_of_ne hne _ _

/-- A call about a pair leaves in its cell what the outcome says. -/
theorem perform_cell_self (question : Question) :
    (board.perform (.about key question)).2.cell key =
      ((board.cell key).serve key board.supply.fresh.1 question).cell :=
  Function.update_self _ _ _

end Board

omit [Arithmetic] in
theorem firsts_cons_of_not_about {key : Key} {call : Call} {reply : Reply}
    {log : List (Call × Reply)} (h : call.isAbout key = false) :
    firsts key ((call, reply) :: log) = firsts key log := by
  simp [firsts, h]

omit [Arithmetic] in
theorem firsts_cons_about (key : Key) (question : Question) (reply : Reply)
    (log : List (Call × Reply)) :
    firsts key ((.about key question, reply) :: log) = reply.first?.toList ++ firsts key log := by
  cases hfirst : reply.first? <;> simp [firsts, Call.isAbout, hfirst]

namespace Board

variable {board : Board} {key : Key} {lit host : Lit}

/-- Reading a run at one pair: calls about other pairs leave what is known of it, and a
call about it is served by its cell. -/
theorem run_cons (board : Board) (key : Key) (call : Call) (calls : List Call) :
    ((board.perform call).2.cell key = board.cell key ∧
      firsts key (log perform board (call :: calls)) =
        firsts key (log perform (board.perform call).2 calls)) ∨
    ∃ question,
      (board.perform call).2.cell key =
        ((board.cell key).serve key board.supply.fresh.1 question).cell ∧
      firsts key (log perform board (call :: calls)) =
        ((board.cell key).serve key board.supply.fresh.1 question).reply.first?.toList ++
          firsts key (log perform (board.perform call).2 calls) := by
  cases habout : call.isAbout key with
  | false =>
    exact .inl ⟨perform_cell_of_not_about habout, firsts_cons_of_not_about habout⟩
  | true =>
    cases call with
    | allocate => cases habout
    | about other question =>
      obtain rfl : other = key := by simpa [Call.isAbout] using habout
      exact .inr ⟨question, perform_cell_self question, firsts_cons_about _ _ _ _⟩

/-- A settled cell stays as it is, and its pair gets no other representative. -/
theorem settled_run (calls : List Call) (h : board.cell key = .settled lit) :
    (after perform board calls).cell key = .settled lit ∧
      firsts key (log perform board calls) = [] := by
  induction calls generalizing board with
  | nil => exact ⟨h, rfl⟩
  | cons call calls ih =>
    obtain ⟨hcell, hfirsts⟩ | ⟨question, hcell, hfirsts⟩ := board.run_cons key call calls
    · rw [hfirsts]
      exact ih (hcell.trans h)
    · rw [h] at hcell hfirsts
      obtain ⟨hafter, hnone⟩ := ih (hcell.trans (by cases question <;> rfl))
      refine ⟨hafter, ?_⟩
      rw [hfirsts, hnone]
      cases question <;> rfl

/-- A host literal waits until it becomes the representative of its pair; that happens
at most once. -/
theorem bound_run (calls : List Call) (h : board.cell key = .bound host) :
    ((after perform board calls).cell key = .bound host ∧
      firsts key (log perform board calls) = []) ∨
    (after perform board calls).cell key = .settled host ∧
      firsts key (log perform board calls) = [host] := by
  induction calls generalizing board with
  | nil => exact .inl ⟨h, rfl⟩
  | cons call calls ih =>
    obtain ⟨hcell, hfirsts⟩ | ⟨question, hcell, hfirsts⟩ := board.run_cons key call calls
    · rw [hfirsts]
      exact ih (hcell.trans h)
    · rw [h] at hcell hfirsts
      rw [hfirsts]
      cases question with
      | get | bind _ => exact ih hcell
      | getOrCreate | share _ =>
        obtain ⟨hafter, hnone⟩ := settled_run calls hcell
        exact .inr ⟨hafter, by rw [hnone]; rfl⟩

/-- A pair without representative is given the one that it has in the end, if any. -/
theorem unsettled_run (calls : List Call) (h : (board.cell key).lit? = none) :
    firsts key (log perform board calls) = ((after perform board calls).cell key).lit?.toList := by
  induction calls generalizing board with
  | nil => exact (congrArg Option.toList h).symm
  | cons call calls ih =>
    obtain ⟨hcell, hfirsts⟩ | ⟨question, hcell, hfirsts⟩ := board.run_cons key call calls
    · rw [hfirsts]
      exact ih ((congrArg Cell.lit? hcell).trans h)
    · rw [hfirsts, Cell.first?_serve h, ← hcell]
      cases hlater : (board.perform call).2.cell key with
      | settled lit =>
        obtain ⟨hafter, hnone⟩ := settled_run calls hlater
        rw [hnone]
        exact (congrArg (fun cell => (Cell.lit? cell).toList) hafter).symm
      | blank | bound _ => exact ih (congrArg Cell.lit? hlater)

end Board

/-! ## The cache beside its supply -/

/-- The cell that a cache shows for a pair. -/
def cell (cache : Cache) (key : Key) : Cell :=
  match cache.entry? key with
  | some lit => .settled lit
  | none =>
    match cache.binding? key with
    | some host => .bound host
    | none => .blank

/-- No pair has both a representative and a host literal that waits. -/
def Exclusive (cache : Cache) : Prop :=
  ∀ key lit, key.InRange → cache.entry? key = some lit → cache.binding? key = none

section Cells

variable {cache : Cache} {key other : Key} {lit host : Lit}

theorem lit?_cell (cache : Cache) (key : Key) : (cache.cell key).lit? = cache.entry? key := by
  unfold cell
  cases cache.entry? key <;> cases cache.binding? key <;> rfl

theorem host?_cell (h : cache.Exclusive) (hkey : key.InRange) :
    (cache.cell key).host? = cache.binding? key := by
  unfold cell
  cases hentry : cache.entry? key with
  | some lit => exact (h key lit hkey hentry).symm
  | none => cases cache.binding? key <;> rfl

theorem cell_eq_settled_iff : cache.cell key = .settled lit ↔ cache.entry? key = some lit := by
  unfold cell
  cases cache.entry? key <;> cases cache.binding? key <;> simp

theorem cell_eq_bound_iff :
    cache.cell key = .bound host ↔ cache.entry? key = none ∧ cache.binding? key = some host := by
  unfold cell
  cases cache.entry? key <;> cases cache.binding? key <;> simp

theorem cell_eq_blank_iff :
    cache.cell key = .blank ↔ cache.entry? key = none ∧ cache.binding? key = none := by
  unfold cell
  cases cache.entry? key <;> cases cache.binding? key <;> simp

/-- The lookup counts do not show. -/
theorem cell_counts (cache : Cache) (hits misses : Nat) :
    cell { cache with hits := hits, misses := misses } = cache.cell := by
  unfold cell
  rfl

theorem binding?_counts (cache : Cache) (hits misses : Nat) (key : Key) :
    binding? { cache with hits := hits, misses := misses } key = cache.binding? key := by
  unfold binding?
  rfl

theorem exclusive_counts (cache : Cache) (hits misses : Nat) :
    Exclusive { cache with hits := hits, misses := misses } ↔ cache.Exclusive := Iff.rfl

theorem entry?_write (hkey : key.InRange) (hother : other.InRange) (lit : Lit) :
    Cache.entry? (cache.write key lit) other =
      if key = other then some lit else cache.entry? other := by
  rw [Cache.entry?, write, Table.get?_insert]
  simp only [hkey.pack_eq_iff hother, entry?]

theorem binding?_write (hkey : key.InRange) (hother : other.InRange) (lit : Lit) :
    (cache.write key lit).binding? other = if key = other then none else cache.binding? other := by
  rw [binding?, write, Table.get?_erase]
  simp only [hkey.pack_eq_iff hother, binding?]

theorem binding?_insert (hkey : key.InRange) (hother : other.InRange) (host : Lit) :
    binding? { cache with bindings := cache.bindings.insert key.pack host } other =
      if key = other then some host else cache.binding? other := by
  rw [binding?, Table.get?_insert]
  simp only [hkey.pack_eq_iff hother, binding?]

/-- Writing an entry settles its cell and no other. -/
theorem cell_write (hkey : key.InRange) (hother : other.InRange) (lit : Lit) :
    (cache.write key lit).cell other = Function.update cache.cell key (.settled lit) other := by
  rw [cell, entry?_write hkey hother, binding?_write hkey hother]
  by_cases h : key = other
  · subst h
    simp
  · rw [if_neg h, if_neg h, Function.update_of_ne (Ne.symm h)]
    rfl

/-- Binding a host literal to a blank cell fills this cell and no other. -/
theorem cell_insert_binding (hkey : key.InRange) (hother : other.InRange)
    (h : cache.entry? key = none) (host : Lit) :
    cell { cache with bindings := cache.bindings.insert key.pack host } other =
      Function.update cache.cell key (.bound host) other := by
  rw [cell, binding?_insert hkey hother]
  by_cases heq : key = other
  · subst heq
    have hentry : entry? { cache with bindings := cache.bindings.insert key.pack host } key =
        none := h
    rw [hentry, Function.update_self, if_pos rfl]
  · rw [if_neg heq, Function.update_of_ne (Ne.symm heq)]
    rfl

theorem Exclusive.write (h : cache.Exclusive) (hkey : key.InRange) (lit : Lit) :
    (cache.write key lit).Exclusive := by
  intro other lit' hother hentry
  rw [entry?_write hkey hother] at hentry
  rw [binding?_write hkey hother]
  split
  · rfl
  · rename_i hne
    rw [if_neg hne] at hentry
    exact h other lit' hother hentry

theorem Exclusive.insert_binding (h : cache.Exclusive) (hkey : key.InRange)
    (hnone : cache.entry? key = none) (host : Lit) :
    Exclusive { cache with bindings := cache.bindings.insert key.pack host } := by
  intro other lit' hother hentry
  have hentry : cache.entry? other = some lit' := hentry
  have hne : key ≠ other := by
    rintro rfl
    rw [hnone] at hentry
    cases hentry
  rw [binding?_insert hkey hother, if_neg hne]
  exact h other lit' hother hentry

end Cells

/-- A cache and the supply of fresh atoms. -/
structure Desk where
  cache : Cache
  supply : Supply

namespace Desk

/-- What a call returns and leaves. -/
def perform (desk : Desk) : Call → Reply × Desk
  | .about key .get =>
    let answer := desk.cache.lookup key
    (.found answer.1, { desk with cache := answer.2 })
  | .about key .getOrCreate =>
    let answer := desk.cache.getOrCreate key desk.supply
    (.created answer.1.1 answer.1.2, { cache := answer.2.1, supply := answer.2.2 })
  | .about key (.share lit) =>
    match desk.cache.share key lit with
    | .ok answer => (.shared answer.1.1 answer.1.2, { desk with cache := answer.2 })
    | .error fault => (.failed fault, desk)
  | .about key (.bind host) =>
    match desk.cache.bind? key host with
    | some cache => (.bound true, { desk with cache := cache })
    | none => (.bound false, desk)
  | .allocate => (.allocated desk.supply.fresh.1, { desk with supply := desk.supply.fresh.2 })

/-! ### One call -/

/-- The reply about a pair is that of its cell, and so is what is taken from the supply. -/
theorem perform_about (desk : Desk) (key : Key) (question : Question) :
    (desk.perform (.about key question)).1 =
      ((desk.cache.cell key).serve key desk.supply.fresh.1 question).reply ∧
    (desk.perform (.about key question)).2.supply =
      if ((desk.cache.cell key).serve key desk.supply.fresh.1 question).takes then
        desk.supply.fresh.2
      else desk.supply := by
  cases hcell : desk.cache.cell key with
  | blank =>
    obtain ⟨hentry, hbinding⟩ := cell_eq_blank_iff.1 hcell
    cases question <;> simp [perform, Cell.serve, lookup, getOrCreate, share, bind?, hentry,
      hbinding, binding?_counts]
  | bound host =>
    obtain ⟨hentry, hbinding⟩ := cell_eq_bound_iff.1 hcell
    cases question <;> simp [perform, Cell.serve, lookup, getOrCreate, share, bind?, hentry,
      hbinding, binding?_counts]
  | settled lit =>
    have hentry := cell_eq_settled_iff.1 hcell
    cases question <;> simp [perform, Cell.serve, lookup, getOrCreate, share, bind?, hentry]

/-- A call about a pair changes its cell, and no cell of another pair. -/
theorem cell_perform {key other : Key} (hkey : key.InRange) (hother : other.InRange) (desk : Desk)
    (question : Question) :
    (desk.perform (.about key question)).2.cache.cell other =
      Function.update desk.cache.cell key
        ((desk.cache.cell key).serve key desk.supply.fresh.1 question).cell other := by
  have hkept := Function.update_eq_self key desk.cache.cell
  cases hcell : desk.cache.cell key with
  | blank =>
    obtain ⟨hentry, hbinding⟩ := cell_eq_blank_iff.1 hcell
    rw [hcell] at hkept
    cases question <;> simp [perform, Cell.serve, lookup, getOrCreate, share, bind?, hentry,
      hbinding, hkept, cell_counts, binding?_counts, cell_write hkey hother,
      cell_insert_binding hkey hother]
  | bound host =>
    obtain ⟨hentry, hbinding⟩ := cell_eq_bound_iff.1 hcell
    rw [hcell] at hkept
    cases question <;> simp [perform, Cell.serve, lookup, getOrCreate, share, bind?, hentry,
      hbinding, hkept, cell_counts, binding?_counts, cell_write hkey hother]
  | settled lit =>
    have hentry := cell_eq_settled_iff.1 hcell
    rw [hcell] at hkept
    cases question <;> simp [perform, Cell.serve, lookup, getOrCreate, share, bind?, hentry,
      hkept, cell_counts]

theorem exclusive_perform {desk : Desk} (h : desk.cache.Exclusive) {call : Call}
    (hcall : call.InRange) : (desk.perform call).2.cache.Exclusive := by
  cases call with
  | allocate => exact h
  | about key question =>
    have hkey : key.InRange := hcall
    cases hentry : desk.cache.entry? key with
    | some lit =>
      cases question <;>
        simpa [perform, lookup, getOrCreate, share, bind?, hentry, exclusive_counts] using h
    | none =>
      cases hbinding : desk.cache.binding? key <;> cases question <;>
        simp [perform, lookup, getOrCreate, share, bind?, hentry, hbinding, h, hkey,
          binding?_counts, exclusive_counts, Exclusive.write, Exclusive.insert_binding]

theorem exclusive_after {desk : Desk} (h : desk.cache.Exclusive) {calls : List Call}
    (hcalls : ∀ call ∈ calls, call.InRange) : (after perform desk calls).cache.Exclusive := by
  induction calls generalizing desk with
  | nil => exact h
  | cons call calls ih =>
    exact ih (exclusive_perform h (hcalls call List.mem_cons_self)) fun later hlater =>
      hcalls later (List.mem_cons_of_mem call hlater)

/-! ### The board that a desk shows -/

/-- A desk and a board agree on the supply and on all pairs in range. -/
structure Shows (desk : Desk) (board : Board) : Prop where
  supply : board.supply = desk.supply
  cell : ∀ key : Key, key.InRange → board.cell key = desk.cache.cell key

/-- The board that a desk shows. -/
def board (desk : Desk) : Board := { cell := desk.cache.cell, supply := desk.supply }

theorem shows_board (desk : Desk) : desk.Shows desk.board := ⟨rfl, fun _ _ => rfl⟩

/-- A call to the cache is the call to the board that it shows. -/
theorem Shows.perform {desk : Desk} {board : Board} (h : desk.Shows board) {call : Call}
    (hcall : call.InRange) :
    (board.perform call).1 = (desk.perform call).1 ∧
      (desk.perform call).2.Shows (board.perform call).2 := by
  obtain ⟨hsupply, hcells⟩ := h
  cases call with
  | allocate =>
    refine ⟨?_, ?_, hcells⟩
    · rw [Board.perform, Desk.perform, hsupply]
    · rw [Board.perform, Desk.perform, hsupply]
  | about key question =>
    have hkey : key.InRange := hcall
    obtain ⟨hreply, htaken⟩ := desk.perform_about key question
    refine ⟨?_, ?_, fun other hother => ?_⟩
    · rw [hreply, Board.perform, hsupply, hcells key hkey]
    · rw [htaken, Board.perform, hsupply, hcells key hkey]
    · rw [desk.cell_perform hkey hother]
      by_cases heq : other = key
      · subst heq
        rw [Board.perform_cell_self, Function.update_self, hsupply, hcells other hkey]
      · have habout : (Call.about key question).isAbout other = false := by
          simp [Call.isAbout, Ne.symm heq]
        rw [Board.perform_cell_of_not_about habout, Function.update_of_ne heq,
          hcells other hother]

/-- A desk and a board that it shows go through the same run. -/
theorem Shows.log {desk : Desk} {board : Board} (h : desk.Shows board) {calls : List Call}
    (hcalls : ∀ call ∈ calls, call.InRange) :
    Cache.log Board.perform board calls = Cache.log Desk.perform desk calls ∧
      (after Desk.perform desk calls).Shows (after Board.perform board calls) :=
  log_related (fun _ _ _ h hcall => h.perform hcall) h hcalls

section Laws

variable {desk : Desk} {key : Key} {calls : List Call}

theorem kept_of_entry {lit : Lit} (hkey : key.InRange) (hcalls : ∀ call ∈ calls, call.InRange)
    (h : desk.cache.entry? key = some lit) :
    Cache.entry? (after perform desk calls).cache key = some lit := by
  have hcell : desk.board.cell key = .settled lit := cell_eq_settled_iff.2 h
  obtain ⟨-, hafter⟩ := desk.shows_board.log hcalls
  rw [← cell_eq_settled_iff, ← hafter.cell key hkey]
  exact (Board.settled_run calls hcell).1

theorem firsts_of_entry {lit : Lit} (hcalls : ∀ call ∈ calls, call.InRange)
    (h : desk.cache.entry? key = some lit) : firsts key (log perform desk calls) = [] := by
  have hcell : desk.board.cell key = .settled lit := cell_eq_settled_iff.2 h
  rw [← (desk.shows_board.log hcalls).1]
  exact (Board.settled_run calls hcell).2

theorem firsts_of_entry_eq_none (hkey : key.InRange) (hcalls : ∀ call ∈ calls, call.InRange)
    (h : desk.cache.entry? key = none) :
    firsts key (log perform desk calls) =
      (Cache.entry? (after perform desk calls).cache key).toList := by
  have hcell : (desk.board.cell key).lit? = none := (desk.cache.lit?_cell key).trans h
  obtain ⟨hlog, hafter⟩ := desk.shows_board.log hcalls
  rw [← lit?_cell, ← hafter.cell key hkey, ← hlog]
  exact Board.unsettled_run calls hcell

theorem length_firsts_le_one (desk : Desk) (hkey : key.InRange)
    (hcalls : ∀ call ∈ calls, call.InRange) :
    (firsts key (log perform desk calls)).length ≤ 1 := by
  cases hentry : desk.cache.entry? key with
  | some lit =>
    rw [firsts_of_entry hcalls hentry]
    exact Nat.zero_le _
  | none =>
    rw [firsts_of_entry_eq_none hkey hcalls hentry]
    exact Option.length_toList_le

/-- A waiting host literal either still waits or has been made the representative. -/
theorem host_run {host : Lit} (hkey : key.InRange) (hcalls : ∀ call ∈ calls, call.InRange)
    (hexclusive : desk.cache.Exclusive) (h : desk.cache.cell key = .bound host) :
    (firsts key (log perform desk calls) = [] ∧
      Cache.entry? (after perform desk calls).cache key = none ∧
      (after perform desk calls).cache.binding? key = some host) ∨
    firsts key (log perform desk calls) = [host] ∧
      Cache.entry? (after perform desk calls).cache key = some host ∧
      (after perform desk calls).cache.binding? key = none := by
  have hboard : desk.board.cell key = .bound host := h
  obtain ⟨hlog, hafter⟩ := desk.shows_board.log hcalls
  obtain ⟨hcell, hfirsts⟩ | ⟨hcell, hfirsts⟩ := Board.bound_run calls hboard
  · rw [hafter.cell key hkey] at hcell
    rw [hlog] at hfirsts
    exact .inl ⟨hfirsts, cell_eq_bound_iff.1 hcell⟩
  · rw [hafter.cell key hkey] at hcell
    rw [hlog] at hfirsts
    have hentry := cell_eq_settled_iff.1 hcell
    exact .inr ⟨hfirsts, hentry, exclusive_after hexclusive hcalls key host hkey hentry⟩

/-- A pair is reported as new at most once. -/
theorem countP_isNew_le_one (hkey : key.InRange) (hcalls : ∀ call ∈ calls, call.InRange) :
    ((log perform desk calls).countP fun record =>
      record.1.isAbout key && record.2.isNew) ≤ 1 := by
  have hlength := desk.length_firsts_le_one hkey hcalls
  rw [firsts, List.length_filterMap_eq_countP, List.countP_filter] at hlength
  refine Nat.le_trans (List.countP_mono_left fun record _ hrecord => ?_) hlength
  rw [Bool.and_eq_true] at hrecord ⊢
  exact ⟨Reply.isSome_first? hrecord.2, hrecord.1⟩

end Laws

/-! ## The laws of a write-once map -/

/-- What holds of a desk, for the calls that may still come, as far as pairs in range are
concerned. -/
structure WriteOnce (desk : Desk) : Prop where
  /-- A host literal does not wait for a pair that is represented. -/
  exclusive : ∀ key lit, key.InRange → desk.cache.entry? key = some lit →
    desk.cache.binding? key = none
  /-- A call changes nothing for the pairs that it is not about. -/
  apart : ∀ key call, key.InRange → call.InRange → call.isAbout key = false →
    Cache.entry? (desk.perform call).2.cache key = desk.cache.entry? key ∧
      (desk.perform call).2.cache.binding? key = desk.cache.binding? key
  /-- The representative of a pair never changes. -/
  kept : ∀ key lit calls, key.InRange → (∀ call ∈ calls, call.InRange) →
    desk.cache.entry? key = some lit →
    Cache.entry? (after perform desk calls).cache key = some lit
  /-- A pair is reported as new at most once. -/
  newOnce : ∀ key calls, key.InRange → (∀ call ∈ calls, call.InRange) →
    ((log perform desk calls).countP fun record =>
      record.1.isAbout key && record.2.isNew) ≤ 1
  /-- The first representative that is reported for a pair is the one it keeps. -/
  first : ∀ key calls, key.InRange → (∀ call ∈ calls, call.InRange) →
    desk.cache.entry? key = none →
    firsts key (log perform desk calls) =
      (Cache.entry? (after perform desk calls).cache key).toList
  /-- An atom is taken for a pair that has neither representative nor host literal. -/
  fresh : ∀ key, (desk.perform (.about key .getOrCreate)).2.supply =
    if desk.cache.entry? key = none ∧ desk.cache.binding? key = none then desk.supply.fresh.2
    else desk.supply
  /-- No other question takes an atom. -/
  frugal : ∀ key question, question ≠ .getOrCreate →
    (desk.perform (.about key question)).2.supply = desk.supply
  /-- A host literal is refused by a pair with a representative or a host literal. -/
  refused : ∀ key host, (desk.perform (.about key (.bind host))).1 =
    .bound (desk.cache.entry? key = none ∧ desk.cache.binding? key = none)
  /-- A host literal that is accepted waits until it is made the first representative of its
  pair; from then on it waits no more. -/
  consumed : ∀ key host calls, key.InRange → (∀ call ∈ calls, call.InRange) →
    desk.cache.entry? key = none → desk.cache.binding? key = none →
    let bound := (desk.perform (.about key (.bind host))).2
    let later := (after perform bound calls).cache
    (firsts key (log perform bound calls) = [] ∧
      later.entry? key = none ∧ later.binding? key = some host) ∨
    firsts key (log perform bound calls) = [host] ∧
      later.entry? key = some host ∧ later.binding? key = none
  /-- Sharing fails for a pair with a representative, and for no other. -/
  fails : ∀ key lit,
    (∃ fault, (desk.perform (.about key (.share lit))).1 = .failed fault) ↔
      desk.cache.entry? key ≠ none

/-- A cache in which no host literal waits for a represented pair is a write-once map. -/
theorem writeOnce_of_exclusive {desk : Desk} (h : desk.cache.Exclusive) : desk.WriteOnce where
  exclusive := h
  apart := fun key call hkey hcall habout => by
    have hcell : (desk.perform call).2.cache.cell key = desk.cache.cell key := by
      rw [← (desk.shows_board.perform hcall).2.cell key hkey]
      exact Board.perform_cell_of_not_about habout
    refine ⟨?_, ?_⟩
    · rw [← lit?_cell, hcell, lit?_cell]
    · rw [← host?_cell (exclusive_perform h hcall) hkey, hcell, host?_cell h hkey]
  kept := fun _ _ _ hkey hcalls hentry => kept_of_entry hkey hcalls hentry
  newOnce := fun _ _ hkey hcalls => countP_isNew_le_one hkey hcalls
  first := fun _ _ hkey hcalls hentry => firsts_of_entry_eq_none hkey hcalls hentry
  fresh := fun key => by
    rw [(desk.perform_about key .getOrCreate).2]
    simp only [← cell_eq_blank_iff]
    cases desk.cache.cell key <;> rfl
  frugal := fun key question hquestion => by
    rw [(desk.perform_about key question).2]
    cases question with
    | getOrCreate => exact absurd rfl hquestion
    | get | share _ | bind _ => cases desk.cache.cell key <;> rfl
  refused := fun key host => by
    rw [(desk.perform_about key (.bind host)).1]
    simp only [← cell_eq_blank_iff]
    cases desk.cache.cell key <;> rfl
  consumed := fun key host calls hkey hcalls hentry hbinding => by
    have hblank : desk.cache.cell key = .blank := cell_eq_blank_iff.2 ⟨hentry, hbinding⟩
    have hcall : (Call.about key (.bind host)).InRange := hkey
    refine host_run hkey hcalls (exclusive_perform h hcall) ?_
    rw [desk.cell_perform hkey hkey, Function.update_self, hblank]
    rfl
  fails := fun key lit => by
    rw [(desk.perform_about key (.share lit)).1, ← lit?_cell]
    cases desk.cache.cell key <;> simp [Cell.serve, Cell.lit?]

/-- Nothing has been asked yet. -/
def opened (supply : Supply) : Desk := { cache := .empty, supply := supply }

end Desk

/-- The board with blank cells only. -/
def Board.opened (supply : Supply) : Board := { cell := fun _ => .blank, supply := supply }

/-- **The cache is a write-once map on pairs.**  The numbers of pairs in range are exact, and
different pairs have different numbers.  The replies to any calls about pairs in range are
those of a board with one cell for each pair, and what any such calls leave is a write-once
map: different pairs do not affect each other, the literal of a pair is fixed once it is set,
it is reported as new once, a fresh atom is taken for blank pairs only, and a host literal
that is not refused becomes the first representative of its pair and is used up by that. -/
theorem replies_eq_and_writeOnce (supply : Supply) {calls : List Call}
    (hcalls : ∀ call ∈ calls, call.InRange) :
    (∀ key : Key, key.InRange → key.pack = squarePair key.formula.index key.step) ∧
    (∀ key other : Key, key.InRange → other.InRange → key.pack = other.pack → key = other) ∧
    log Desk.perform (.opened supply) calls = log Board.perform (.opened supply) calls ∧
    (after Desk.perform (.opened supply) calls).WriteOnce := by
  have hexclusive : (Desk.opened supply).cache.Exclusive := fun key lit _ hentry => by
    cases hentry
  have hshows : (Desk.opened supply).Shows (.opened supply) := ⟨rfl, fun _ _ => rfl⟩
  exact ⟨fun _ => Key.InRange.pack_eq, fun _ _ => Key.InRange.pack_injective,
    (hshows.log hcalls).1.symm,
    Desk.writeOnce_of_exclusive (Desk.exclusive_after hexclusive hcalls)⟩

end Boards

/-- The last pair of words, with a host literal, beside the first pair. -/
theorem replies_eq_and_writeOnce_corner :
    let first : Key := ⟨⟨0⟩, 0⟩
    let last : Key := ⟨⟨4294967295⟩, 4294967295⟩
    let calls : List Call := [.about last (.bind ⟨9, false⟩), .about first .getOrCreate,
      .about last (.share ⟨5, true⟩), .allocate, .about last .getOrCreate]
    let desk := after Desk.perform (.opened {}) calls
    (∀ call ∈ calls, call.InRange) ∧ last.pack = 18446744073709551615 ∧
      firsts last (log Board.perform (.opened {}) calls) = [⟨9, false⟩] ∧
      log Desk.perform (.opened {}) calls = log Board.perform (.opened {}) calls ∧
      desk.WriteOnce := by
  intro first last calls desk
  have hcalls : ∀ call ∈ calls, call.InRange := by decide +kernel
  obtain ⟨-, -, hlog, hwriteOnce⟩ := replies_eq_and_writeOnce {} hcalls
  exact ⟨hcalls, by decide +kernel, by rw [← hlog]; decide +kernel, hlog, hwriteOnce⟩

end Cache
end TemporalHorizon
