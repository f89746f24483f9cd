import Mathlib.Tactic.Common
import Whittle.Proofs.Ir.Order

/-!
# Variables that are written before they are read

On the way that plain jumps lead from the entry of a function, whatever is read of its variables is
written before (`Function.RunsInTurn`).  The versions with which hoisted declarations start are
exceptions: code can read them before anything writes them.  Source that is kept as it stands is
another one.
-/

namespace Whittle.Ir

/-- Whether an operation is source that is kept as it stands. -/
def Op.isKept : Op → Bool
  | .unsupported .. => true
  | _ => false

/-- A version is the one with which a hoisted declaration starts: a `var`, or a function. -/
structure Place.StartsHoisted (p : Place) (env : Environment) : Prop where
  kind : env.kindOf p.declaration = .varKind ∨ env.kindOf p.declaration = .functionKind
  version : p.cell.version = .numbered 0

/-- A place can be read where the given cells are written: versions of variables of the function only
if they are among them, or if they are hoisted. -/
def Initialized (env : Environment) (owner : FuncId) (written : List CellId) (p : Place) : Prop :=
  env.isTemporary p.declaration = false → env.ownerOf p.declaration = some owner →
    p.cell.id ∈ written ∨ p.StartsHoisted env

/-- Every instruction of a list can read what it reads, given the cells that are written before. -/
def InTurn (env : Environment) (owner : FuncId) : (written : List CellId) → List Instr → Prop
  | _, [] => True
  | written, i :: is => (i.op.isKept = false → ∀ p ∈ i.reads, Initialized env owner written p) ∧
      InTurn env owner (written ++ i.writes) is

/-- Plain jumps lead from the entry to a block, past the given instructions. -/
inductive Route (entry : BlockId) (blocks : Table BlockId Block) : BlockId → List Instr → Prop
  | start : Route entry blocks entry []
  | jump {id target : BlockId} {b : Block} {is : List Instr} : Route entry blocks id is →
      blocks.get? id = some b → b.terminal = some (.jump target) →
      Route entry blocks target (is ++ b.instructions)

/-- Plain jumps lead from the entry of a function to a block that ends otherwise, and on the way
variables of the function are written before they are read. -/
def Function.RunsInTurn (f : Function) (env : Environment) : Prop :=
  ∃ id is b t, Route f.entry f.blocks id is ∧ f.blocks.get? id = some b ∧ b.terminal = some t ∧
    (∀ target, t ≠ .jump target) ∧
    InTurn env f.id (f.header.flatMap (·.writes)) (is ++ b.instructions) ∧
    ∀ p ∈ t.reads, Initialized env f.id
      (f.header.flatMap (·.writes) ++ (is ++ b.instructions).flatMap (·.writes)) p

variable {env env' : Environment} {cells cells' : List Cell} {owner : FuncId} {f : Function}
  {written written' : List CellId} {is js : List Instr} {i : Instr} {p : Place}

/-! ## Instructions in turn -/

theorem Initialized.mono (h : Initialized env owner written p) (hwritten : written ⊆ written') :
    Initialized env owner written' p :=
  fun hnamed howner => (h hnamed howner).imp_left fun hp => hwritten hp

theorem Initialized.of_temporary (h : env.isTemporary p.declaration = true) :
    Initialized env owner written p := by
  intro hnamed
  rw [h] at hnamed
  cases hnamed

theorem Initialized.of_foreign (h : env.ownerOf p.declaration ≠ some owner) :
    Initialized env owner written p :=
  fun _ howner => absurd howner h

theorem Place.StartsHoisted.advance (h : p.StartsHoisted env) (hadvance : Advance env cells env' cells')
    (hp : p.declaration.index < env.declarations.size) : p.StartsHoisted env' :=
  ⟨by rw [hadvance.kind _ hp]; exact h.kind, h.version⟩

theorem Initialized.advance (h : Initialized env owner written p)
    (hadvance : Advance env cells env' cells') (hp : p.declaration.index < env.declarations.size) :
    Initialized env' owner written p := by
  intro hnamed howner
  rw [hadvance.temporary _ hp] at hnamed
  rw [hadvance.owner _ hp] at howner
  exact (h hnamed howner).imp_right (·.advance hadvance hp)

namespace InTurn

theorem append_iff : InTurn env owner written (is ++ js) ↔
    InTurn env owner written is ∧ InTurn env owner (written ++ is.flatMap (·.writes)) js := by
  induction is generalizing written with
  | nil => simp [InTurn]
  | cons i is ih =>
    rw [List.cons_append, InTurn, ih, InTurn, List.flatMap_cons, List.append_assoc, and_assoc]

theorem mono (h : InTurn env owner written is) (hwritten : written ⊆ written') :
    InTurn env owner written' is := by
  induction is generalizing written written' with
  | nil => trivial
  | cons i is ih =>
    refine ⟨fun hop p hp => (h.1 hop p hp).mono hwritten, ih h.2 fun c hc => ?_⟩
    rcases List.mem_append.1 hc with hc | hc
    · exact List.mem_append_left _ (hwritten hc)
    · exact List.mem_append_right _ hc

/-- One more instruction at the end. -/
theorem concat (h : InTurn env owner written is)
    (hi : i.op.isKept = false → ∀ p ∈ i.reads,
      Initialized env owner (written ++ is.flatMap (·.writes)) p) :
    InTurn env owner written (is ++ [i]) :=
  append_iff.2 ⟨h, hi, trivial⟩

/-- What an instruction in the middle reads. -/
theorem initialized (h : InTurn env owner written (is ++ i :: js)) (hop : i.op.isKept = false)
    (hp : p ∈ i.reads) : Initialized env owner (written ++ is.flatMap (·.writes)) p :=
  (append_iff.1 h).2.1 hop p hp

theorem advance (h : InTurn env owner written is) (hadvance : Advance env cells env' cells')
    (hlogs : env.Logs cells) (his : ∀ i ∈ is, ∀ p ∈ i.places, p.IsOf cells) :
    InTurn env' owner written is := by
  induction is generalizing written with
  | nil => trivial
  | cons i is ih =>
    obtain ⟨hi, his⟩ := List.forall_mem_cons.1 his
    refine ⟨fun hop p hp => (h.1 hop p hp).advance hadvance ?_, ih h.2 his⟩
    exact (hlogs.has (hi p (List.mem_append_left _ hp))).2

end InTurn

/-! ## Routes -/

namespace Route

variable {entry id id' next : BlockId} {blocks : Table BlockId Block} {b : Block}

/-- Whatever a route passes stands in a block. -/
theorem mem (h : Route entry blocks id is) (hi : i ∈ is) :
    ∃ id b, blocks.get? id = some b ∧ i ∈ b.instructions := by
  induction h with
  | start => cases hi
  | jump _ hb _ ih =>
    rcases List.mem_append.1 hi with hi | hi
    · exact ih hi
    · exact ⟨_, _, hb, hi⟩

/-- A block that no route passes may change. -/
theorem insert_iff (hnew : ∀ is b, Route entry blocks id is → blocks.get? id = some b → False)
    (hnext : ∀ is target, Route entry blocks id is → b.terminal ≠ some (.jump target)) :
    Route entry (blocks.insert id b) id' is ↔ Route entry blocks id' is := by
  constructor
  · intro h
    induction h with
    | start => exact .start
    | jump _ hb hterminal ih =>
      rw [Table.get?_insert] at hb
      split at hb
      · next heq =>
        obtain rfl := Option.some.inj hb
        subst heq
        exact absurd hterminal (hnext _ _ ih)
      · exact .jump ih hb hterminal
  · intro h
    induction h with
    | start => exact .start
    | jump hroute hb hterminal ih =>
      refine .jump ih ?_ hterminal
      rw [Table.get?_insert, if_neg]
      · exact hb
      · rintro rfl
        exact hnew _ _ hroute hb

/-- A new block at the end of a route leads on to where no route has been. -/
theorem of_insert (h : Route entry (blocks.insert id b) id' is) (hb : b.terminal = some (.jump next))
    (hnext : (blocks.insert id b).get? next = none) : Route entry blocks id' is ∨ id' = next := by
  induction h with
  | start => exact .inl .start
  | jump _ hget hterminal ih =>
    rcases ih with hroute | rfl
    · rw [Table.get?_insert] at hget
      split at hget
      · obtain rfl := Option.some.inj hget
        rw [hb] at hterminal
        exact .inr (Terminal.jump.inj (Option.some.inj hterminal)).symm
      · exact .inl (.jump hroute hget hterminal)
    · rw [hnext] at hget
      cases hget

theorem insert (h : Route entry blocks id' is) (hnew : blocks.get? id = none) :
    Route entry (blocks.insert id b) id' is := by
  induction h with
  | start => exact .start
  | jump _ hb hterminal ih =>
    refine .jump ih ?_ hterminal
    rw [Table.get?_insert, if_neg]
    · exact hb
    · rintro rfl
      rw [hnew] at hb
      cases hb

end Route

/-- Later environments say the same of a function whose places are known. -/
theorem Function.RunsInTurn.advance {own : Place → Prop} (h : f.RunsInTurn env)
    (hadvance : Advance env cells env' cells') (hlogs : env.Logs cells)
    (huses : f.Uses (·.IsOf cells) own) : f.RunsInTurn env' := by
  obtain ⟨id, is, b, t, hroute, hb, ht, hjump, hturn, hlast⟩ := h
  refine ⟨id, is, b, t, hroute, hb, ht, hjump, hturn.advance hadvance hlogs fun i hi => ?_,
    fun p hp => (hlast p hp).advance hadvance (hlogs.has ((huses.blocks id b hb).terminal t ht p hp)).2⟩
  rcases List.mem_append.1 hi with hi | hi
  · obtain ⟨id, b, hb, hi⟩ := hroute.mem hi
    exact (huses.blocks id b hb).instructions i hi
  · exact (huses.blocks id b hb).instructions i hi

end Whittle.Ir
