import Mathlib.Tactic.Common
import Whittle.Proofs.Ir.Functions
import Whittle.Proofs.Ir.Visible
import Whittle.Proofs.Lowering.Graph
import Whittle.Proofs.Lowering.Turns

/-!
# Places that lowering uses

Lowering mentions no place that the environment has not handed out.  Temporaries are read behind their
definitions, in the same block or header; variables belong to the function that uses them or are
captured; what a function returns is a temporary of that function.  As long as a declared function runs
straight, its variables are written before they are read.  An action takes a state of which all this
holds to another one (`Yields`) and says what its answer is; the steps here do not look at trees.
-/

namespace Whittle.Ir

/-- Whether an operation stores into no variable and shows none to others. -/
def Op.isOrdinary (op : Op) : Bool := op.target?.isNone && !op.isExposing true && !op.isBinding

/-! ## Lowered code -/

/-- A block of lowered code. -/
structure Block.Lowered (b : Block) (env : Environment) (cells : List Cell) (owner : FuncId) :
    Prop where
  uses : b.Uses (·.IsOf cells) fun p => env.ownerOf p.declaration = some owner
  order : b.InOrder env
  visible : b.Visible true env owner

/-- A lowered function. -/
structure Function.Lowered (f : Function) (env : Environment) (cells : List Cell) (owner : FuncId) :
    Prop where
  fits : f.Fits env cells owner
  order : f.InOrder env
  visible : f.Visible true env owner

section Lowered

variable {env env' : Environment} {cells cells' : List Cell} {owner : FuncId} {f : Function} {b : Block}

theorem Function.lowered_start (env : Environment) (cells : List Cell) (id : FuncId)
    (name : Option String) (parent : Option FuncId) (kind : FunctionKind) (origin : Option Nat)
    (entry : BlockId) : (Function.start id name parent kind origin entry).Lowered env cells id where
  fits := Function.fits_start env cells id name parent kind origin entry
  order := ⟨by rintro p ⟨⟩, by rintro id b ⟨⟩⟩
  visible := ⟨by rintro i ⟨⟩, by rintro id b ⟨⟩⟩

theorem Block.lowered_empty (env : Environment) (cells : List Cell) (owner : FuncId) :
    (⟨[], none⟩ : Block).Lowered env cells owner :=
  ⟨⟨by rintro i ⟨⟩, by rintro t ⟨⟩, by rintro p ⟨⟩⟩, by rintro p ⟨⟩, by rintro i ⟨⟩, by rintro p ⟨⟩⟩

theorem Function.Lowered.setBlock (h : f.Lowered env cells owner) (id : BlockId)
    (hb : b.Lowered env cells owner) : (f.setBlock id b).Lowered env cells owner := by
  exact ⟨⟨h.fits.id, h.fits.uses.setBlock id hb.uses, h.fits.phis⟩,
    ⟨h.order.header, forall_setBlock h.order.blocks id hb.order⟩,
    ⟨h.visible.header, forall_setBlock h.visible.blocks id hb.visible⟩⟩

theorem Function.Lowered.recomputeFlow (h : f.Lowered env cells owner) :
    f.recomputeFlow.Lowered env cells owner :=
  ⟨h.fits.recomputeFlow, ⟨h.order.header, h.order.blocks⟩, ⟨h.visible.header, h.visible.blocks⟩⟩

theorem Advance.lowered (h : Advance env cells env' cells') (hlogs : env.Logs cells)
    (hf : f.Lowered env cells owner) : f.Lowered env' cells' owner :=
  ⟨h.fits hf.fits, h.inOrder hlogs hf.fits hf.order, h.visible hlogs hf.fits hf.visible⟩

theorem Advance.lowered_block (h : Advance env cells env' cells') (hlogs : env.Logs cells)
    (hb : b.Lowered env cells owner) : b.Lowered env' cells' owner :=
  ⟨hb.uses.mono (fun _ hp => hp.mono h.cells) fun _ hp => h.ownerOf hp,
    h.ordered hlogs hb.order hb.uses.instructions hb.uses.lastReads,
    fun i hi => h.instrVisible hlogs (hb.uses.instructions i hi) (hb.visible.instructions i hi),
    fun p hp => h.shows hlogs (hb.uses.lastReads p hp) (hb.visible.last p hp)⟩

end Lowered

end Whittle.Ir

namespace Whittle.Lowering

open Ir Syntax

/-! ## States -/

/-- Current versions are versions of their variables. -/
def Versions.Fits (versions : Versions) (cells : List Cell) : Prop :=
  ∀ d p, versions.get? d = some p → p.IsOf cells ∧ p.declaration = d

/-- The block being filled, as far as it is. -/
def Frame.opened (frame : Frame) : Block := ⟨frame.filled.reverse, none⟩

/-- The cells that are defined where the next instruction goes. -/
def Frame.known (frame : Frame) : List CellId :=
  (if frame.inHeader then frame.function.header else frame.filled).flatMap (·.writes)

/-- A function that is being filled fits in.  A version may be due to be written next. -/
structure Frame.Fits (frame : Frame) (env : Environment) (cells : List Cell)
    (due : Option DeclId := none) : Prop where
  function : frame.function.Lowered env cells frame.function.id
  opened : frame.opened.Lowered env cells frame.function.id
  versions : Versions.Fits frame.versions cells
  breaks : ∀ loop ∈ frame.loops, ∀ versions ∈ loop.breaks, Versions.Fits versions cells
  unclaimed : ∀ d, frame.unclaimed.contains d = true → env.ownerOf d = some frame.function.id
  settles : frame.function.kind = .declaration → frame.Settles env due

/-- All that is known while a module is lowered fits in. -/
structure State.Fits (s : State) (cells : List Cell) (due : Option DeclId := none) : Prop where
  logs : s.env.Logs cells
  /-- Names stand for variables. -/
  scopes : ∀ d, Scopes.Binds s.scopes d → s.env.isTemporary d = false
  frame : s.frame.Fits s.env cells due
  outer : ∀ o ∈ s.outer, Versions.Fits o.2 cells
  functions : ∀ id f, s.functions.get? id = some f → f.Lowered s.env cells id
  turns : ∀ id f, s.functions.get? id = some f → f.kind = .declaration → f.RunsInTurn s.env

/-- How far an action goes: it stays in the block being filled, or in the function. -/
inductive Extent where
  | block
  | function

variable {extent : Extent} {s s' s'' : State} {cells cells' cells'' : List Cell} {frame : Frame}
  {env env' : Environment} {versions : Versions} {p q : Place} {d : DeclId} {op : Op}
  {due due' start mid finish : Option DeclId} {b : BlockId}

/-- One state leads to another one in the same function. -/
structure Comes (extent : Extent) (s : State) (cells : List Cell) (s' : State) (cells' : List Cell)
    (due : Option DeclId := none) : Prop where
  started : s.env.Logs cells
  env : Advance s.env cells s'.env cells'
  fits : s'.Fits cells' due
  id : s'.frame.function.id = s.frame.function.id
  inHeader : s'.frame.inHeader = s.frame.inHeader
  /-- What was defined before still is, in the same block. -/
  known : extent = .block → s.frame.known ⊆ s'.frame.known
  onward : s.frame.Onward s'.frame
  stays : extent = .block → s.frame.Stays s'.frame

theorem Versions.Fits.mono (h : Versions.Fits versions cells) (hcells : cells <+: cells') :
    Versions.Fits versions cells' := fun d p hp => (h d p hp).imp_left (·.mono hcells)

theorem Versions.Fits.insert (h : Versions.Fits versions cells) (hp : p.IsOf cells)
    (hd : p.declaration = d) : Versions.Fits (versions.insert d p) cells := by
  intro d' p' hp'
  rw [Table.get?_insert] at hp'
  split at hp'
  · next heq =>
    obtain rfl := Option.some.inj hp'
    exact ⟨hp, hd.trans heq.symm⟩
  · exact h d' p' hp'

theorem Frame.Fits.advance (h : frame.Fits env cells due) (hlogs : env.Logs cells)
    (hadvance : Advance env cells env' cells') : frame.Fits env' cells' due where
  function := hadvance.lowered hlogs h.function
  opened := hadvance.lowered_block hlogs h.opened
  versions := h.versions.mono hadvance.cells
  breaks loop hloop versions hversions := (h.breaks loop hloop versions hversions).mono hadvance.cells
  unclaimed d hd := hadvance.ownerOf (h.unclaimed d hd)
  settles hkind := (h.settles hkind).advance hadvance hlogs h.function.fits.uses
    (fun i hi => h.opened.uses.instructions i (List.mem_reverse.2 hi)) fun d p hp => (h.versions d p hp).1

theorem State.Fits.advance (h : s.Fits cells due) (hadvance : Advance s.env cells env' cells') :
    ({ s with env := env' } : State).Fits cells' due where
  logs := hadvance.logs
  scopes d hd := hadvance.named (h.scopes d hd)
  frame := h.frame.advance h.logs hadvance
  outer o ho := (h.outer o ho).mono hadvance.cells
  functions id f hf := hadvance.lowered h.logs (h.functions id f hf)
  turns id f hf hkind := (h.turns id f hf hkind).advance hadvance h.logs (h.functions id f hf).fits.uses

namespace Comes

theorem refl (h : s.Fits cells due) : Comes extent s cells s cells due :=
  ⟨h.logs, .refl h.logs, h, rfl, rfl, fun _ _ hc => hc, .refl _, fun _ => .refl _⟩

theorem trans (h : Comes extent s cells s' cells' due) (h' : Comes extent s' cells' s'' cells'' due') :
    Comes extent s cells s'' cells'' due' :=
  ⟨h.started, h.env.trans h'.env, h'.fits, h'.id.trans h.id, h'.inHeader.trans h.inHeader,
    fun hextent _ hc => h'.known hextent (h.known hextent hc), h.onward.trans h'.onward,
    fun hextent => (h.stays hextent).trans (h'.stays hextent)⟩

/-- What stays in a block stays in the function. -/
theorem loosen (h : Comes .block s cells s' cells' due) : Comes extent s cells s' cells' due :=
  ⟨h.started, h.env, h.fits, h.id, h.inHeader, fun _ => h.known rfl, h.onward, fun _ => h.stays rfl⟩

/-- Only the environment changes. -/
theorem of_env (h : s.Fits cells due) (hadvance : Advance s.env cells env' cells') :
    Comes extent s cells { s with env := env' } cells' due :=
  ⟨h.logs, hadvance, h.advance hadvance, rfl, rfl, fun _ _ hc => hc, .refl _, fun _ => .refl _⟩

/-- Only the function being filled changes. -/
theorem of_frame (h : s.Fits cells due) (hframe : frame.Fits s.env cells due')
    (hid : frame.function.id = s.frame.function.id) (hheader : frame.inHeader = s.frame.inHeader)
    (hknown : extent = .block → s.frame.known ⊆ frame.known) (honward : s.frame.Onward frame)
    (hstays : extent = .block → s.frame.Stays frame) :
    Comes extent s cells { s with frame } cells due' :=
  ⟨h.logs, .refl h.logs, { h with frame := hframe }, hid, hheader, hknown, honward, hstays⟩

/-- What guides the lowering changes in the function being filled. -/
theorem of_sameCode (h : s.Fits cells due) (hframe : frame.Fits s.env cells due')
    (hsame : s.frame.SameCode frame) (hheader : frame.inHeader = s.frame.inHeader) :
    Comes extent s cells { s with frame } cells due' :=
  .of_frame h hframe hsame.id hheader
    (fun _ _ hc => by rwa [Frame.known, hheader, hsame.header, hsame.filled]) hsame.onward
    fun _ => hsame.stays

/-- Only the scopes change. -/
theorem of_scopes (h : s.Fits cells due) {scopes : Scopes}
    (hscopes : ∀ d, Scopes.Binds scopes d → s.env.isTemporary d = false) :
    Comes extent s cells { s with scopes } cells due :=
  ⟨h.logs, .refl h.logs, { h with scopes := hscopes }, rfl, rfl, fun _ _ hc => hc, .refl _, fun _ => .refl _⟩

theorem named (h : Comes extent s cells s' cells' due) (hd : s.env.isTemporary d = false) :
    s'.env.isTemporary d = false := h.env.named hd

end Comes

/-! ## Answers -/

/-- A place that the next instruction may mention. -/
structure Seen (p : Place) (s : State) (cells : List Cell) : Prop where
  isOf : p.IsOf cells
  available : Available s.env s.frame.known p
  shown : s.env.Shows s.frame.function.id p

/-- A place that the next instruction may read. -/
structure Usable (p : Place) (s : State) (cells : List Cell) : Prop extends Seen p s cells where
  initialized : s.frame.function.kind = .declaration → s.frame.Initialized s.env p

/-- A temporary of the function being filled that the next instruction may read. -/
structure Own (p : Place) (s : State) (cells : List Cell) : Prop extends Usable p s cells where
  temporary : s.env.isTemporary p.declaration = true
  owner : s.env.ownerOf p.declaration = some s.frame.function.id

/-- A version of a variable that the function being filled may mention. -/
structure Named (d : DeclId) (p : Place) (s : State) (cells : List Cell) : Prop where
  isOf : p.IsOf cells
  declaration : p.declaration = d
  named : s.env.isTemporary d = false
  shown : s.env.ownerOf d = some s.frame.function.id ∨ s.env.captured.contains d = true

/-- The current version of a variable, which the next instruction may read. -/
structure Current (d : DeclId) (p : Place) (s : State) (cells : List Cell) : Prop
    extends Named d p s cells where
  initialized : s.frame.function.kind = .declaration → s.frame.Initialized s.env p

/-- A version of a variable that is about to be written. -/
structure Due (d : DeclId) (p : Place) (s : State) (cells : List Cell) : Prop
    extends Named d p s cells where
  latest : s.frame.function.kind = .declaration → IsPlain s.frame.function.blocks →
    ∀ p', s.frame.versions.get? d = some p' → p' = p

theorem Seen.mono (h : Seen p s cells) (hcomes : Comes .block s cells s' cells' due) :
    Seen p s' cells' where
  isOf := h.isOf.mono hcomes.env.cells
  available htemporary := by
    rw [hcomes.env.temporary _ (hcomes.started.has h.isOf).2] at htemporary
    exact hcomes.known rfl (h.available htemporary)
  shown := hcomes.id ▸ hcomes.env.shows hcomes.started h.isOf h.shown

theorem Comes.initialized (h : Comes .block s cells s' cells' due) (hof : p.IsOf cells)
    (hp : s.frame.function.kind = .declaration → s.frame.Initialized s.env p) :
    s'.frame.function.kind = .declaration → s'.frame.Initialized s'.env p := by
  intro hkind hplain
  rw [(h.stays rfl).blocks] at hplain
  rw [h.id]
  exact ((hp (h.onward.kind ▸ hkind) hplain).mono (h.stays rfl).written).advance h.env
    (h.started.has hof).2

theorem Usable.mono (h : Usable p s cells) (hcomes : Comes .block s cells s' cells' due) :
    Usable p s' cells' :=
  ⟨h.toSeen.mono hcomes, hcomes.initialized h.isOf h.initialized⟩

theorem Own.mono (h : Own p s cells) (hcomes : Comes .block s cells s' cells' due) : Own p s' cells' where
  toUsable := h.toUsable.mono hcomes
  temporary := (hcomes.env.temporary _ (hcomes.started.has h.isOf).2).trans h.temporary
  owner := hcomes.id ▸ hcomes.env.ownerOf h.owner

theorem Named.mono (h : Named d p s cells) (hcomes : Comes extent s cells s' cells' due) :
    Named d p s' cells' where
  isOf := h.isOf.mono hcomes.env.cells
  declaration := h.declaration
  named := hcomes.named h.named
  shown := h.shown.imp (fun howner => hcomes.id ▸ hcomes.env.ownerOf howner) (hcomes.env.captured d)

theorem Named.shows (h : Named d p s cells) : s.env.Shows s.frame.function.id p := by
  intro _
  rw [h.declaration]
  exact h.shown

theorem Named.seen (h : Named d p s cells) : Seen p s cells :=
  ⟨h.isOf, .of_named (h.declaration ▸ h.named), h.shows⟩

theorem Current.mono (h : Current d p s cells) (hcomes : Comes .block s cells s' cells' due) :
    Current d p s' cells' :=
  ⟨h.toNamed.mono hcomes, hcomes.initialized h.isOf h.initialized⟩

theorem Current.usable (h : Current d p s cells) : Usable p s cells := ⟨h.seen, h.initialized⟩

/-- A version of a captured variable. -/
structure Exposed (p : Place) (s : State) (cells : List Cell) : Prop where
  isOf : p.IsOf cells
  exposes : s.env.Exposes p

theorem Exposed.mono (h : Exposed p s cells) (hcomes : Comes extent s cells s' cells' due) :
    Exposed p s' cells' := ⟨h.isOf.mono hcomes.env.cells, hcomes.env.exposes h.exposes⟩

theorem Exposed.seen (h : Exposed p s cells) : Seen p s cells :=
  ⟨h.isOf, .of_named h.exposes.named, fun _ => .inr h.exposes.captured⟩

theorem Named.exposed (h : Named d p s cells) (hd : s.env.captured.contains d = true) :
    Exposed p s cells := by
  obtain rfl := h.declaration
  exact ⟨h.isOf, h.named, hd⟩

/-- The same for several places. -/
theorem Comes.usable (h : Comes .block s cells s' cells' due) {ps : List Place}
    (hps : ∀ p ∈ ps, Usable p s cells) : ∀ p ∈ ps, Usable p s' cells' :=
  fun p hp => (hps p hp).mono h

/-! ## Actions -/

variable {α β : Type}

/-- From a state that fits in, an action leads to another one, with an answer as described.  Blocks
end only once the header is done. -/
def Yields (extent : Extent) (s : State) (cells : List Cell) (act : Lower α)
    (Q : α → State → List Cell → Prop) (start finish : Option DeclId := none) : Prop :=
  s.Fits cells start → (extent = .function → s.frame.inHeader = false) →
    ∀ a s', act s = .ok (a, s') → ∃ cells', Comes extent s cells s' cells' finish ∧ Q a s' cells'

/-- Nothing is said about an answer. -/
abbrev Anything : α → State → List Cell → Prop := fun _ _ _ => True

/-- All places that belong to an answer may be read. -/
abbrev Known (places : α → List Place) : α → State → List Cell → Prop :=
  fun a s cells => ∀ p ∈ places a, Usable p s cells

namespace Yields

variable {act : Lower α} {next : α → Lower β} {Q Q' : α → State → List Cell → Prop}
  {R : β → State → List Cell → Prop}

/-- An action that stays in the block, and what comes behind it. -/
theorem bind (h : Yields .block s cells act Q start mid)
    (h' : ∀ a s' cells', Comes .block s cells s' cells' mid → Q a s' cells' →
      Yields extent s' cells' (next a) R mid finish) :
    Yields extent s cells (act >>= next) R start finish := by
  intro hs hheader b s'' hrun
  obtain ⟨a, s', hact, hnext⟩ := bind_eq_ok hrun
  obtain ⟨cells', hcomes, ha⟩ := h hs nofun a s' hact
  obtain ⟨cells'', hcomes', hb⟩ := h' a s' cells' hcomes ha hcomes.fits
    (fun hextent => hcomes.inHeader.trans (hheader hextent)) b s'' hnext
  exact ⟨cells'', hcomes.loosen.trans hcomes', hb⟩

/-- An action that may end the block, and what comes behind it. -/
theorem andThen (h : Yields .function s cells act Q start mid)
    (h' : ∀ a s' cells', Comes .function s cells s' cells' mid → Q a s' cells' →
      Yields .function s' cells' (next a) R mid finish) :
    Yields .function s cells (act >>= next) R start finish := by
  intro hs hheader b s'' hrun
  obtain ⟨a, s', hact, hnext⟩ := bind_eq_ok hrun
  obtain ⟨cells', hcomes, ha⟩ := h hs hheader a s' hact
  obtain ⟨cells'', hcomes', hb⟩ := h' a s' cells' hcomes ha hcomes.fits
    (fun hextent => hcomes.inHeader.trans (hheader hextent)) b s'' hnext
  exact ⟨cells'', hcomes.trans hcomes', hb⟩

theorem pure {a : α} (h : Q a s cells) : Yields extent s cells (Pure.pure a) Q due due := by
  intro hs _ a' s' hrun
  obtain ⟨rfl, rfl⟩ := pure_run hrun
  exact ⟨cells, .refl hs, h⟩

theorem throw (e : Error) : Yields extent s cells (throw e : Lower α) Q start finish := by
  intro _ _ a s' hrun
  cases hrun

theorem weaken (h : Yields extent s cells act Q start finish)
    (hQ : ∀ a s' cells', Q a s' cells' → Q' a s' cells') :
    Yields extent s cells act Q' start finish := by
  intro hs hheader a s' hrun
  obtain ⟨cells', hcomes, ha⟩ := h hs hheader a s' hrun
  exact ⟨cells', hcomes, hQ a s' cells' ha⟩

theorem loosen (h : Yields .block s cells act Q start finish) :
    Yields extent s cells act Q start finish := by
  intro hs _ a s' hrun
  obtain ⟨cells', hcomes, ha⟩ := h hs nofun a s' hrun
  exact ⟨cells', hcomes.loosen, ha⟩

/-- The state can be seen in another way. -/
theorem refit (h : Yields extent s cells act Q mid finish)
    (hfits : s.Fits cells start → s.Fits cells mid) : Yields extent s cells act Q start finish :=
  fun hs => h (hfits hs)

/-- An action that only looks at the state. -/
theorem reading {a : α} (hact : act s = .ok (a, s))
    (h : Yields extent s cells (next a) R start finish) :
    Yields extent s cells (act >>= next) R start finish := by
  intro hs hheader b s'' hrun
  obtain ⟨a', s', hrunAct, hnext⟩ := bind_eq_ok hrun
  obtain ⟨rfl, rfl⟩ := Prod.mk.inj (Except.ok.inj (hact.symm.trans hrunAct))
  exact h hs hheader b s'' hnext

/-- A step that is known. -/
theorem of_run (s' : State) {a : α} (hact : act s = .ok (a, s'))
    (h : s.Fits cells start → ∃ cells', Comes extent s cells s' cells' finish ∧ Q a s' cells') :
    Yields extent s cells act Q start finish := by
  intro hs _ a' s'' hrun
  obtain ⟨rfl, rfl⟩ := Prod.mk.inj (Except.ok.inj (hact.symm.trans hrun))
  exact h hs

end Yields

/-- Something beside the code changes in the function being filled. -/
theorem yields_onFrame {change : Frame → Frame}
    (hframe : s.frame.Fits s.env cells start → (change s.frame).Fits s.env cells finish)
    (hsame : s.frame.SameCode (change s.frame))
    (hheader : (change s.frame).inHeader = s.frame.inHeader) :
    Yields .block s cells (onFrame change) Anything start finish :=
  .of_run _ rfl fun hs => ⟨cells, .of_sameCode hs (hframe hs.frame) hsame hheader, trivial⟩

/-- Counters, captures and bound functions change. -/
theorem yields_sameCells {act : Lower α} {a : α} (hrun : act s = .ok (a, { s with env }))
    (hcell : env.nextCell = s.env.nextCell) (hdeclarations : env.declarations = s.env.declarations)
    (hversions : env.versions = s.env.versions)
    (hcaptured : ∀ d, s.env.captured.contains d = true → env.captured.contains d = true)
    (hblock : s.env.nextBlock.index ≤ env.nextBlock.index)
    (hbound : ∀ d, env.functions.contains d = true →
      s.env.functions.contains d = true ∨ d.index < env.declarations.size) :
    Yields .block s cells act Anything :=
  .of_run _ hrun fun hs =>
    ⟨cells, .of_env hs (.of_same hs.logs hcell hdeclarations hversions hcaptured hblock hbound), trivial⟩

theorem yields_newFunc : Yields .block s cells (onEnv (·.newFunc)) Anything :=
  yields_sameCells rfl rfl rfl rfl (fun _ hd => hd) (Nat.le_refl _) fun _ hd => .inl hd

/-! ## Blocks -/

/-- A block was handed out after all blocks to which control comes straight. -/
def Ahead (b : BlockId) (s : State) : Prop :=
  s.frame.function.kind = .declaration → s.frame.Coming s.env b

/-- Control has left the straight way. -/
def Left (s : State) : Prop :=
  s.frame.function.kind = .declaration → ¬ IsPlain s.frame.function.blocks

theorem Left.mono (h : Left s) (hcomes : Comes extent s cells s' cells' due) : Left s' := by
  intro hkind
  have hkind' := hcomes.onward.kind ▸ hkind
  exact (hcomes.onward.left hkind' (h hkind')).1

theorem Ahead.mono (h : Ahead b s) (hcomes : Comes .block s cells s' cells' due) : Ahead b s' := by
  intro hkind
  obtain ⟨hhanded, hlater⟩ := h (hcomes.onward.kind ▸ hkind)
  refine ⟨hhanded.trans_le hcomes.env.nextBlock, ?_⟩
  rw [hcomes.onward.entry, (hcomes.stays rfl).blocks]
  exact hlater

/-- Nothing comes onto the straight way any more. -/
theorem Ahead.mono_left (h : Ahead b s) (hcomes : Comes extent s cells s' cells' due) (hleft : Left s) :
    Ahead b s' := by
  intro hkind
  have hkind' := hcomes.onward.kind ▸ hkind
  obtain ⟨hhanded, hlater⟩ := h hkind'
  exact ⟨hhanded.trans_le hcomes.env.nextBlock, fun id is htrail =>
    hlater id is ((hcomes.onward.left hkind' (hleft hkind')).2 id is htrail)⟩

/-- A terminal that the block being filled can end with. -/
structure Ending (terminal : Terminal) (s : State) (cells : List Cell) : Prop where
  reads : ∀ p ∈ terminal.reads, Usable p s cells
  returned : ∀ p, terminal = .ret (some p) → s.env.ownerOf p.declaration = some s.frame.function.id

theorem Ending.lowered {terminal : Terminal} (h : Ending terminal s cells) (hs : s.Fits cells)
    (hheader : s.frame.inHeader = false) :
    (s.frame.close terminal).Lowered s.env cells s.frame.function.id := by
  obtain ⟨huses, horder, hvisible⟩ := hs.frame.opened
  refine hs.frame.function.setBlock _ ⟨⟨huses.instructions, fun t ht => ?_, fun p hp => ?_⟩, ?_,
    ⟨hvisible.instructions, fun p hp => (h.reads p hp).shown⟩⟩
  · obtain rfl := Option.some.inj ht
    exact fun p hp => (h.reads p hp).isOf
  · exact h.returned p (Option.some.inj hp)
  · refine Ordered.close horder fun p hp => (h.reads p hp).available.mono fun c hc => ?_
    rw [Frame.known, hheader] at hc
    simpa [Frame.opened] using hc

theorem Frame.Fits.endBlock (h : frame.Fits env cells) {terminal : Terminal} {next : BlockId}
    (hclose : (frame.close terminal).Lowered env cells frame.function.id)
    (hsettles : frame.function.kind = .declaration → (frame.endBlock terminal next).Settles env none) :
    (frame.endBlock terminal next).Fits env cells where
  function := hclose
  opened := Block.lowered_empty ..
  versions := h.versions
  breaks := h.breaks
  unclaimed := h.unclaimed
  settles := hsettles

/-- A block has ended.  What was handed out behind the next block is still ahead. -/
structure Ended (terminal : Terminal) (s s' : State) : Prop where
  ahead : ∀ b, Ahead b s → (s.frame.function.kind = .declaration →
    IsPlain s.frame.function.blocks → ∀ target, terminal = .jump target → target.index < b.index) →
    Ahead b s'
  left : (∀ target, terminal ≠ .jump target) → Left s'

theorem yields_endBlock {terminal : Terminal} (h : Ending terminal s cells) {next : BlockId}
    (hnext : Ahead next s) (hjump : s.frame.function.kind = .declaration →
      IsPlain s.frame.function.blocks → ∀ target, terminal = .jump target → target = next) :
    Yields .function s cells (endBlock terminal next) fun _ s' _ => Ended terminal s s' := by
  intro hs hheader _ s' hrun
  obtain ⟨-, rfl⟩ := Prod.mk.inj (Except.ok.inj hrun)
  have hframe : (s.frame.endBlock terminal next).Fits s.env cells :=
    hs.frame.endBlock (h.lowered hs (hheader rfl)) fun hkind =>
      (hs.frame.settles hkind).endBlock (fun p hp => (h.reads p hp).initialized hkind) (hnext hkind)
        (hjump hkind)
  refine ⟨cells, .of_frame hs hframe rfl rfl nofun (Frame.onward_endBlock hs.frame.settles) nofun,
    fun b hb hbefore hkind => ?_, fun hnot hkind hplain => ?_⟩
  · refine (hb hkind).endBlock (hs.frame.settles hkind) fun hplain target htarget =>
      ⟨?_, hbefore hkind hplain target htarget⟩
    obtain ⟨is, htrail, -⟩ := ((hs.frame.settles hkind).straight hplain).code
    rw [hjump hkind hplain target htarget]
    exact (hnext hkind).later _ _ htrail
  · obtain ⟨target, htarget⟩ := hplain _ _ Frame.get?_close_self
    exact hnot target (Option.some.inj htarget)

/-- A block has been handed out. -/
structure NewBlock (b : BlockId) (s s' : State) : Prop where
  first : b = s.env.nextBlock
  handed : b.index < s'.env.nextBlock.index
  ahead : Ahead b s'

theorem yields_newBlock : Yields .block s cells newBlock fun b s' _ => NewBlock b s s' := by
  refine .of_run { s with env := s.env.newBlock.2 } rfl fun hs =>
    ⟨cells, .of_env hs ?_, rfl, Nat.lt_succ_self _, fun hkind => ?_⟩
  · exact .of_same hs.logs rfl rfl rfl (fun _ hd => hd) (Nat.le_succ _) fun _ hd => .inl hd
  · exact ⟨Nat.lt_succ_self _, (hs.frame.settles hkind).handed⟩

/-- Control goes on into the next block. -/
theorem yields_goOn {next : BlockId} (hnext : Ahead next s) :
    Yields .function s cells (endBlock (.jump next) next) fun _ s' _ =>
      ∀ b, Ahead b s → next.index < b.index → Ahead b s' := by
  refine (yields_endBlock ⟨by simp [Terminal.reads], by simp⟩ hnext ?_).weaken fun _ _ _ h b hb hlt =>
    h.ahead b hb fun _ _ target htarget => ?_
  · exact fun _ _ target htarget => (Terminal.jump.inj htarget).symm
  · rwa [← Terminal.jump.inj htarget]

/-- Anything may follow a jump once control has left the straight way. -/
theorem yields_jump (target : BlockId) {next : BlockId} (hnext : Ahead next s) (hleft : Left s) :
    Yields .function s cells (endBlock (.jump target) next) Anything :=
  (yields_endBlock ⟨by simp [Terminal.reads], by simp⟩ hnext
    fun hkind hplain => absurd hplain (hleft hkind)).weaken fun _ _ _ _ => trivial

theorem yields_branch {test : Place} (h : Usable test s cells)
    (consequent alternate join : BlockId) {next : BlockId} (hnext : Ahead next s) :
    Yields .function s cells (endBlock (.branch test consequent alternate join) next) fun _ s' _ =>
      Left s' ∧ ∀ b, Ahead b s → Ahead b s' :=
  (yields_endBlock ⟨by simpa [Terminal.reads] using h, by simp⟩ hnext
    (by rintro _ _ target ⟨⟩)).weaken fun _ _ _ hended =>
      ⟨hended.left (by rintro target ⟨⟩), fun b hb => hended.ahead b hb (by rintro _ _ target ⟨⟩)⟩

theorem Frame.Fits.congr (h : frame.Fits env cells due) {frame' : Frame}
    (hfunction : frame'.function.Lowered env cells frame.function.id) (hsame : frame.SameCode frame')
    (hversions : frame'.versions = frame.versions)
    (huninitialized : frame'.uninitialized = frame.uninitialized) (hloops : frame'.loops = frame.loops)
    (hunclaimed : ∀ d, frame'.unclaimed.contains d = true → env.ownerOf d = some frame.function.id) :
    frame'.Fits env cells due where
  function := hsame.id ▸ hfunction
  opened := by
    rw [Frame.opened, hsame.filled, hsame.id]
    exact h.opened
  versions := hversions ▸ h.versions
  breaks := hloops ▸ h.breaks
  unclaimed := hsame.id ▸ hunclaimed
  settles hkind := (h.settles (hsame.kind ▸ hkind)).congr hsame hversions huninitialized hloops

theorem yields_unreachable :
    Yields .block s cells (onFrame ({ · with isReachable := false })) Anything :=
  yields_onFrame (fun h => h.congr h.function (.of_function rfl rfl rfl) rfl rfl rfl h.unclaimed)
    (.of_function rfl rfl rfl) rfl

theorem yields_endUnreachable {terminal : Terminal} (h : Ending terminal s cells)
    (hjump : ∀ target, terminal = .jump target → Left s) :
    Yields .function s cells (endUnreachable terminal) Anything := by
  refine yields_newBlock.bind fun next s₁ cells₁ hcomes hnext => ?_
  have hending : Ending terminal s₁ cells₁ :=
    ⟨hcomes.usable h.reads, fun p hp => hcomes.id ▸ hcomes.env.ownerOf (h.returned p hp)⟩
  refine (yields_endBlock hending hnext.ahead fun hkind hplain target htarget => ?_).andThen
    fun _ _ _ _ _ => yields_unreachable.loosen
  exact absurd hplain ((hjump target htarget).mono hcomes hkind)

theorem yields_return {value : Option Place} (h : ∀ p ∈ value, Own p s cells) :
    Yields .function s cells (endUnreachable (.ret value)) Anything := by
  refine yields_endUnreachable ?_ (by rintro target ⟨⟩)
  constructor
  · intro p hp
    exact (h p (Option.mem_toList.1 hp)).toUsable
  · intro p hp
    obtain rfl := Terminal.ret.inj hp
    exact (h p rfl).owner

/-! ## Instructions -/

/-- An instruction that can be put where the next one goes. -/
structure Fitting (p : Place) (op : Op) (s : State) (cells : List Cell) : Prop where
  place : p.IsOf cells ∧ s.env.Shows s.frame.function.id p
  reads : ∀ q ∈ op.reads, Seen q s cells
  initialized : op.isKept = false → s.frame.function.kind = .declaration →
    ∀ q ∈ op.reads, s.frame.Initialized s.env q
  target : ∀ q ∈ op.target?, q.IsOf cells ∧ s.env.Shows s.frame.function.id q
  exposed : op.isExposing true = true → ∀ q ∈ op.reads, s.env.Exposes q
  unnamed : op.isUnnamed = true → s.env.isTemporary p.declaration = true
  bound : op.isBinding = true → s.env.isTemporary p.declaration = false

theorem Frame.mem_known_put {i : Instr} {c : CellId} :
    c ∈ (frame.put i).known ↔ c ∈ i.writes ∨ c ∈ frame.known := by
  rw [Frame.put]
  split
  · next hheader => simp [Frame.known, hheader, or_comm]
  · next hheader => simp [Frame.known, hheader]

theorem Frame.inHeader_put (frame : Frame) (i : Instr) : (frame.put i).inHeader = frame.inHeader := by
  obtain ⟨header, filled, heq⟩ := frame.put_eq i
  rw [heq]

theorem Frame.Fits.put (h : frame.Fits env cells due) {i : Instr} (hi : ∀ p ∈ i.places, p.IsOf cells)
    (hready : i.Ready env frame.known) (hvisible : i.Visible true env frame.function.id)
    (hsettles : (frame.put i).function.kind = .declaration → (frame.put i).Settles env none) :
    (frame.put i).Fits env cells := by
  rw [Frame.put] at hsettles ⊢
  split at hsettles
  · next hheader =>
    rw [if_pos hheader]
    rw [Frame.known, if_pos hheader] at hready
    obtain ⟨hfits, horder, hseen⟩ := h.function
    have huses : ∀ j ∈ frame.function.header ++ [i], ∀ p ∈ j.places, p.IsOf cells := by
      simpa [or_imp, forall_and] using ⟨hfits.uses.header, hi⟩
    have hheader : ∀ j ∈ frame.function.header ++ [i], j.Visible true env frame.function.id := by
      simpa [or_imp, forall_and] using ⟨hseen.header, hvisible⟩
    exact { h with
      function := ⟨⟨rfl, { hfits.uses with header := huses }, hfits.phis⟩,
        ⟨horder.header.concat (by simpa using hready), horder.blocks⟩, ⟨hheader, hseen.blocks⟩⟩
      settles := hsettles }
  · next hheader =>
    rw [if_neg hheader]
    rw [Frame.known, if_neg hheader] at hready
    obtain ⟨huses, horder, hseen⟩ := h.opened
    have hopened (j : Instr) (hj : j ∈ (i :: frame.filled).reverse) :
        j = i ∨ j ∈ frame.opened.instructions := by
      simpa [Frame.opened, or_comm] using hj
    refine { h with
      opened := ⟨⟨fun j hj => ?_, huses.terminal, huses.returned⟩, ?_, ⟨fun j hj => ?_, hseen.last⟩⟩
      settles := hsettles }
    · rcases hopened j hj with rfl | hj
      · exact hi
      · exact huses.instructions j hj
    · change Ordered env [] [] (i :: frame.filled).reverse
      rw [List.reverse_cons]
      exact Ordered.concat horder (hready.mono fun c hc => by simpa [Frame.opened] using hc)
    · rcases hopened j hj with rfl | hj
      · exact hvisible
      · exact hseen.instructions j hj

theorem Frame.function_put (frame : Frame) (i : Instr) :
    (frame.put i).function.id = frame.function.id := by
  obtain ⟨header, filled, heq⟩ := frame.put_eq i
  rw [heq]

/-- An instruction writes the version that is due, if one is. -/
def State.Writes (s : State) (due : Option DeclId) (p : Place) (op : Op) : Prop :=
  s.frame.function.kind = .declaration → IsPlain s.frame.function.blocks →
    ∀ d ∈ due, ∀ p', s.frame.versions.get? d = some p' → p' = p ∨ p' ∈ op.target?

theorem State.writes_none (s : State) {p : Place} {op : Op} : s.Writes none p op := fun _ _ _ => nofun

theorem Due.writes (h : Due d q s cells) (hq : q = p ∨ op.target? = some q) :
    s.Writes (some d) p op := by
  intro hkind hplain d' hd' p' hp'
  obtain rfl := Option.some.inj hd'
  rw [h.latest hkind hplain p' hp']
  exact hq

theorem Comes.put (h : s.Fits cells due) (hfitting : Fitting p op s cells) (hdue : s.Writes due p op)
    (origin : Option Nat) : Comes .block s cells (s.put p op origin) cells := by
  have henv : Comes .block s cells { s with env := (s.env.newInstrAt p origin op).2 } cells due :=
    .of_env h (Advance.newInstrAt h.logs p origin op)
  have hreads : ∀ q ∈ (s.env.newInstrAt p origin op).1.reads, Seen q s cells := hfitting.reads
  have hplaces (q : Place) (hq : q ∈ (s.env.newInstrAt p origin op).1.places) :
      q.IsOf cells ∧ s.env.Shows s.frame.function.id q := by
    rcases List.mem_append.1 hq with hq | hq
    · exact ⟨(hreads q hq).isOf, (hreads q hq).shown⟩
    · rcases List.mem_cons.1 hq with rfl | hq
      · exact hfitting.place
      · exact hfitting.target q (Option.mem_toList.1 hq)
  have hframe := henv.fits.frame.put (fun q hq => (hplaces q hq).1)
    ⟨fun q hq => (hreads q hq).available, hfitting.unnamed, hfitting.bound⟩
    ⟨fun q hq => (hplaces q hq).2, fun hop q hq => henv.env.exposes (hfitting.exposed hop q hq)⟩
    fun hkind => ?_
  · exact henv.trans (.of_frame henv.fits hframe (Frame.function_put _ _) (Frame.inHeader_put _ _)
      (fun _ c hc => Frame.mem_known_put.2 (.inr hc)) (Frame.onward_put _ _) fun _ => Frame.stays_put _ _)
  · have hkind' : s.frame.function.kind = .declaration := (Frame.onward_put _ _).kind ▸ hkind
    refine (henv.fits.frame.settles hkind').put (fun hop q hq => ?_) fun hplain d hd p' hp' => ?_
    · exact henv.initialized (hreads q hq).isOf (fun hkind => hfitting.initialized hop hkind q hq) hkind'
    · rw [Instr.writes]
      refine List.mem_map.2 ⟨p', ?_, rfl⟩
      rcases hdue hkind' hplain d hd p' hp' with rfl | hp'
      · exact List.mem_cons_self
      · exact List.mem_cons_of_mem _ (Option.mem_toList.2 hp')

theorem yields_put (h : Fitting p op s cells) (hdue : s.Writes due p op) (origin : Option Nat) :
    Yields .block s cells (put p op origin) Anything due :=
  .of_run (s.put p op origin) rfl fun hs => ⟨cells, .put hs h hdue origin, trivial⟩

/-- An instruction that only defines a version of a variable. -/
theorem yields_define (hp : Named d p s cells) (hdue : s.Writes due p op) (hreads : op.reads = [])
    (hop : op.isUnnamed = false) (htarget : op.target? = none) (origin : Option Nat) :
    Yields .block s cells (put p op origin) (fun _ => Current d p) due := by
  refine .of_run (s.put p op origin) rfl fun hs => ?_
  have hfitting : Fitting p op s cells := ⟨⟨hp.isOf, hp.shows⟩, by simp [hreads], by simp [hreads],
    by simp [htarget], by simp [hreads], by simp [hop], fun _ => hp.declaration ▸ hp.named⟩
  have hcomes := Comes.put hs hfitting hdue origin
  refine ⟨cells, hcomes, hp.mono hcomes, fun _ _ _ _ => .inl (Frame.mem_written_put.2 (.inr ?_))⟩
  simp [Instr.writes, Instr.defined, Environment.newInstrAt]

theorem Comes.emit (h : s.Fits cells due) (hreads : ∀ q ∈ op.reads, Seen q s cells)
    (hinitialized : op.isKept = false → s.frame.function.kind = .declaration →
      ∀ q ∈ op.reads, s.frame.Initialized s.env q)
    (htarget : ∀ q ∈ op.target?, q.IsOf cells ∧ s.env.Shows s.frame.function.id q)
    (hexposed : op.isExposing true = true → ∀ q ∈ op.reads, s.env.Exposes q)
    (hdue : ∀ p, s.Writes due p op) (hbinding : op.isBinding = false) (origin : Option Nat) :
    ∃ cells', Comes .block s cells (s.emit op origin) cells' ∧
      Own s.temporary (s.emit op origin) cells' := by
  obtain ⟨cells', hadvance, hof, howner⟩ := Advance.newTemporary h.logs s.frame.function.id
  have hcomes : Comes .block s cells { s with env := (s.env.newTemporary s.frame.function.id).2 }
      cells' due := .of_env h hadvance
  have htemporary : (s.env.newTemporary s.frame.function.id).2.isTemporary s.temporary.declaration =
      true := Environment.isTemporary_newTemporary ..
  have hshown : (s.env.newTemporary s.frame.function.id).2.Shows s.frame.function.id s.temporary := by
    intro hnamed
    rw [htemporary] at hnamed
    cases hnamed
  have hput := Comes.put hcomes.fits (p := s.temporary) ⟨⟨hof, hshown⟩, fun q hq => (hreads q hq).mono hcomes,
    fun hop hkind q hq => hcomes.initialized (hreads q hq).isOf
      (fun hkind => hinitialized hop hkind q hq) hkind,
    fun q hq => ⟨(htarget q hq).1.mono hadvance.cells,
      hadvance.shows h.logs (htarget q hq).1 (htarget q hq).2⟩,
    fun hop q hq => hadvance.exposes (hexposed hop q hq), fun _ => htemporary,
    fun hop => by rw [hbinding] at hop; cases hop⟩ (hdue _) origin
  have htemporary' := (hput.env.temporary _ (hput.started.has hof).2).trans htemporary
  refine ⟨cells', hcomes.trans hput, ⟨⟨hof, fun _ => ?_, ?_⟩, fun _ _ => .of_temporary htemporary'⟩,
    htemporary', ?_⟩
  · exact Frame.mem_known_put.2 (.inl (by simp [Instr.writes, Instr.defined, Environment.newInstrAt]))
  · exact fun hnamed => .inl (hput.id ▸ hput.env.ownerOf howner)
  · exact hput.id ▸ hput.env.ownerOf howner

/-- An instruction whose value is a new temporary. -/
theorem yields_emit (hreads : ∀ q ∈ op.reads, Usable q s cells) (hop : op.isOrdinary = true)
    {origin : Option Nat} : Yields .block s cells (emit op origin) Own := by
  obtain ⟨⟨htarget, hexposing⟩, hbinding⟩ :
      (op.target? = none ∧ op.isExposing true = false) ∧ op.isBinding = false := by
    simpa [Op.isOrdinary] using hop
  exact .of_run (s.emit op origin) rfl fun hs =>
    Comes.emit hs (fun q hq => (hreads q hq).toSeen) (fun _ hkind q hq => (hreads q hq).initialized hkind)
      (by simp [htarget]) (by simp [hexposing]) (fun _ => s.writes_none) hbinding origin

/-- An instruction that stores into a variable. -/
theorem yields_store {target value : Place} (hvalue : Usable value s cells)
    (htarget : Due d target s cells) (kind : StoreKind) (origin : Option Nat) :
    Yields .block s cells (emit (.storeLocal target value kind) origin) Own (some d) := by
  refine .of_run (s.emit (.storeLocal target value kind) origin) rfl fun hs =>
    Comes.emit hs ?_ ?_ ?_ ?_ (fun p => htarget.writes (.inr rfl)) rfl origin
  · simpa [Op.reads] using hvalue.toSeen
  · simpa [Op.reads] using fun _ => hvalue.initialized
  · simpa [Op.target?] using ⟨htarget.isOf, htarget.shows⟩
  · rintro ⟨⟩

theorem yields_emitExport (hreads : ∀ q ∈ op.reads, Usable q s cells) (htarget : op.target? = none)
    (hbinding : op.isBinding = false)
    (hexposed : op.isExposing true = true → ∀ q ∈ op.reads, s.env.Exposes q) (exported : String)
    (origin : Option Nat) : Yields .block s cells (emitExport op exported origin) Own := by
  refine .of_run ({ s.emit op origin with
    exports := (s.emit op origin).exports.insert exported s.env.nextInstr }) rfl fun hs => ?_
  obtain ⟨cells', hcomes, hown⟩ := Comes.emit hs (fun q hq => (hreads q hq).toSeen)
    (fun _ hkind q hq => (hreads q hq).initialized hkind) (by simp [htarget]) hexposed
    (fun _ => s.writes_none) hbinding origin
  exact ⟨cells', { hcomes with fits := { hcomes.fits with } },
    ⟨⟨hown.isOf, hown.available, hown.shown⟩, hown.initialized⟩, hown.temporary, hown.owner⟩

/-! ## Versions -/

theorem yields_capture (d : DeclId) :
    Yields .block s cells (capture d) fun _ s' _ => s'.env.captured.contains d = true :=
  .of_run _ rfl fun hs => ⟨cells, .of_env hs (.of_same hs.logs rfl rfl rfl
    (fun x hx => by simp [Environment.capture, hx]) (Nat.le_refl _) fun _ hd => .inl hd),
    by simp [Environment.capture]⟩

theorem Frame.Fits.weaken (h : frame.Fits env cells) (due : Option DeclId) :
    frame.Fits env cells due :=
  { h with settles := fun hkind => (h.settles hkind).weaken due }

theorem State.Fits.weaken (h : s.Fits cells) (due : Option DeclId) : s.Fits cells due :=
  { h with frame := h.frame.weaken due }

theorem Comes.withVersion (h : s.Fits cells (some d)) (hd : s.env.isTemporary d = false) :
    ∃ cells', Comes .block s cells (s.withVersion d) cells' (some d) ∧
      Due d (s.version d) (s.withVersion d) cells' := by
  obtain ⟨cells', hplace, hof⟩ := Advance.newPlace h.logs (Environment.index_lt_of_named hd)
  have hrecord : Advance _ _ ((s.env.newPlace d).2.record d s.frame.block (s.version d)) cells' :=
    .record hplace.logs hof s.frame.block
  have henv : Comes .block s cells _ cells' (some d) := .of_env h (hplace.trans hrecord)
  refine ⟨cells', ?_⟩
  rw [State.withVersion]
  dsimp only
  split
  · next howner =>
    have hframe : Frame.Fits { s.frame with versions := s.frame.versions.insert d (s.version d) }
        ((s.env.newPlace d).2.record d s.frame.block (s.version d)) cells' (some d) :=
      { henv.fits.frame with
        versions := henv.fits.frame.versions.insert hof rfl
        settles := fun hkind => (henv.fits.frame.settles hkind).insert (eq_of_beq howner)
          ⟨⟨s.frame.block, s.version d⟩, Environment.mem_versionsOf_record.2 (.inr ⟨rfl, rfl⟩), rfl⟩ }
    have hcomes := henv.trans (.of_sameCode henv.fits hframe (.of_function rfl rfl rfl) rfl)
    refine ⟨hcomes, ⟨hof, rfl, hcomes.named hd, .inl (eq_of_beq howner)⟩, fun _ _ p' hp' => ?_⟩
    rw [Table.get?_insert, if_pos rfl] at hp'
    exact (Option.some.inj hp').symm
  · next hforeign =>
    have hcapture : Advance ((s.env.newPlace d).2.record d s.frame.block (s.version d)) cells'
        (((s.env.newPlace d).2.record d s.frame.block (s.version d)).capture d) cells' :=
      .of_same henv.fits.logs rfl rfl rfl (fun x hx => by
        simp only [Environment.capture, KeySet.contains_add, Bool.or_eq_true]
        exact .inr hx) (Nat.le_refl _) fun _ hd => .inl hd
    have hcomes := henv.trans (.of_env henv.fits hcapture)
    refine ⟨hcomes, ⟨hof, rfl, hcomes.named hd, .inr (by simp [Environment.capture])⟩,
      fun hkind hplain p' hp' => ?_⟩
    have hold := ((henv.fits.frame.settles hkind).straight hplain).versions d p' hp'
    exact absurd (beq_iff_eq.2 hold.owner) hforeign

theorem yields_newVersion (hd : s.env.isTemporary d = false) :
    Yields .block s cells (newVersion d) (Due d) none (some d) :=
  .of_run _ (newVersion_run d s) fun hs => Comes.withVersion (hs.weaken (some d)) hd

theorem State.Fits.named (h : s.Fits cells) {name : String}
    (hfind : Scopes.find? s.scopes name = some d) : s.env.isTemporary d = false := by
  obtain ⟨scope, hscope, hget⟩ := List.exists_of_findSome?_eq_some hfind
  exact h.scopes d ⟨scope, hscope, name, hget⟩

theorem yields_declared (name : String) : Yields .block s cells (declared name)
    fun d s' _ => s'.env.isTemporary d = false := by
  intro hs _ d s' hrun
  obtain ⟨rfl, hfind⟩ := declared_run hrun
  exact ⟨cells, .refl hs, hs.named hfind⟩

theorem Comes.assigned (h : s.Fits cells) (d : DeclId) :
    Comes .block s cells (s.assigned d) cells (some d) := by
  refine .of_sameCode h { h.frame with
    unclaimed := fun d' hd' => ?_
    settles := fun hkind => (h.frame.settles hkind).assigned d _ } (.of_function rfl rfl rfl) rfl
  rw [Table.contains_erase, Bool.and_eq_true] at hd'
  exact h.frame.unclaimed d' hd'.2

theorem yields_bindingPlace (hd : s.env.isTemporary d = false) :
    Yields .block s cells (bindingPlace d) (Due d) none (some d) := by
  intro hs _ place s' hrun
  have hassigned := Comes.assigned hs d
  rcases bindingPlace_run hrun with ⟨honly, hunclaimed, rfl⟩ | ⟨rfl, rfl⟩
  · -- the place is that of the only record
    obtain ⟨hof, hdeclaration⟩ := hs.logs.recorded d ⟨s.frame.block, place⟩ (by simp [honly])
    refine ⟨cells, hassigned, ⟨hof, hdeclaration, hd, .inl (hs.frame.unclaimed d hunclaimed)⟩,
      fun hkind hplain p' hp' => ?_⟩
    obtain ⟨r, hr, rfl⟩ := (((hs.frame.settles hkind).straight hplain).versions d p' hp').recorded
    rw [honly, List.mem_singleton] at hr
    rw [hr]
  · obtain ⟨cells', hcomes, hnamed⟩ := Comes.withVersion hassigned.fits hd
    exact ⟨cells', hassigned.trans hcomes, hnamed⟩

theorem yields_ownVersion (hd : s.env.isTemporary d = false)
    (howner : s.env.ownerOf d = some s.frame.function.id) (failure : String) :
    Yields .block s cells (ownVersion d failure) fun p s' cells' => Named d p s' cells' ∧
      (s.frame.uninitialized.contains d = false → Current d p s' cells') := by
  refine .reading (a := s.frame) rfl ?_
  intro hs
  cases hget : s.frame.versions.get? d with
  | some place =>
    obtain ⟨hof, hdeclaration⟩ := hs.frame.versions d place hget
    have hnamed : Named d place s cells := ⟨hof, hdeclaration, hd, .inl howner⟩
    exact Yields.pure ⟨hnamed, fun hready =>
      ⟨hnamed, fun hkind => (hs.frame.settles hkind).initialized hget hready⟩⟩ hs
  | none => exact Yields.throw _ hs

theorem State.Fits.outerVersion? (h : s.Fits cells) (hp : s.outerVersion? d = some p) :
    p.IsOf cells ∧ p.declaration = d := by
  rcases Option.or_eq_some_iff.1 hp with hp | ⟨-, hp⟩
  · obtain ⟨o, ho, hp⟩ := Option.bind_eq_some_iff.1 hp
    exact h.outer o (List.mem_of_find?_eq_some ho) d p hp
  · obtain ⟨r, hr, rfl⟩ := Option.map_eq_some_iff.1 hp
    exact h.logs.recorded d r (List.mem_of_getLast? hr)

theorem yields_readVersion (name : String) (hd : s.env.isTemporary d = false) :
    Yields .block s cells (readVersion name d) (Current d) := by
  refine .reading (a := s.env.ownerOf d == some s.frame.function.id) rfl ?_
  split
  · next howner =>
    refine .reading (a := (s.env.ownerOf d == some s.frame.function.id) &&
      s.frame.uninitialized.contains d) rfl ?_
    split
    · exact .throw _
    · next hearly =>
      have hready : s.frame.uninitialized.contains d = false := by simpa [howner] using hearly
      exact (yields_ownVersion hd (eq_of_beq howner) _).weaken fun _ _ _ h => h.2 hready
  · next hforeign =>
    refine (yields_capture d).bind fun _ s₁ cells₁ hcomes hcaptured => .reading (a := s₁) rfl ?_
    cases hversion : s₁.outerVersion? d with
    | some place =>
      obtain ⟨hof, hdeclaration⟩ := hcomes.fits.outerVersion? hversion
      refine .pure ⟨⟨hof, hdeclaration, hcomes.named hd, .inr hcaptured⟩, fun _ _ => .of_foreign ?_⟩
      rw [hdeclaration, hcomes.id, hcomes.env.owner d (Environment.index_lt_of_named hd)]
      simpa using hforeign
    | none => exact .throw _

theorem yields_captureAll (exclude : Option DeclId) (names : List String) :
    Yields .block s cells (captureAll exclude names)
      fun bindings s cells => ∀ p ∈ bindings.map (·.2), Exposed p s cells := by
  induction names generalizing s cells with
  | nil => exact .pure (by rintro p ⟨⟩)
  | cons name names ih =>
    intro hs
    unfold captureAll
    refine Yields.reading (a := s.scopes.find? name) rfl ?_ hs
    cases hfind : s.scopes.find? name with
    | none => exact ih
    | some d =>
      dsimp only
      split
      · exact ih
      · refine (yields_capture d).bind fun _ s₁ cells₁ hcomes hcaptured => ?_
        have hd := hcomes.named (hs.named hfind)
        have hmore (act : Lower Place) (hact : Yields .block s₁ cells₁ act (Named d)) :
            Yields .block s₁ cells₁ (do
              let place ← act
              return (name, place) :: (← captureAll exclude names))
              fun bindings s cells => ∀ p ∈ bindings.map (·.2), Exposed p s cells :=
          hact.bind fun place _ _ hcomes' hplace => ih.bind fun rest _ _ hcomes'' hrest =>
            .pure (List.forall_mem_cons.2
              ⟨(hplace.exposed (hcomes'.env.captured d hcaptured)).mono hcomes'', hrest⟩)
        refine .reading (a := (s₁.env.ownerOf d == some s₁.frame.function.id) &&
          s₁.frame.uninitialized.contains d) rfl ?_
        split
        · next hearly =>
          have howner := eq_of_beq (Bool.and_eq_true_iff.1 hearly).1
          exact hmore _ ((yields_ownVersion hd howner _).weaken fun _ _ _ h => h.1)
        · exact hmore _ ((yields_readVersion name hd).weaken fun _ _ _ h => h.toNamed)

/-! ## Source kept as it stands -/

/-- Kept source that defines nothing. -/
theorem yields_emitKept (source : Verbatim) {bindings : List (String × Place)}
    (hbindings : ∀ p ∈ bindings.map (·.2), Exposed p s cells) (origin : Option Nat) :
    Yields .block s cells (emit (.unsupported source bindings) origin) Own := by
  refine .of_run (s.emit (.unsupported source bindings) origin) rfl fun hs =>
    Comes.emit hs ?_ (by rintro ⟨⟩) ?_ ?_ (fun _ => s.writes_none) rfl origin
  · exact fun p hp => (hbindings p hp).seen
  · rintro p ⟨⟩
  · exact fun _ p hp => (hbindings p hp).exposes

theorem yields_keepExpr (e : Expr) : Yields .block s cells (keepExpr e) Own :=
  (yields_captureAll none _).bind fun _ _ _ _ hbindings => yields_emitKept _ hbindings _

theorem yields_keepStmt (stmt : Stmt) {defines : Option DeclId}
    (hd : ∀ d ∈ defines, s.env.isTemporary d = false) :
    Yields .block s cells (keepStmt stmt defines) Anything := by
  refine (yields_captureAll defines _).bind fun bindings _ _ hcomes hbindings => ?_
  cases defines with
  | none => exact (yields_emitKept _ hbindings _).bind fun _ _ _ _ _ => .pure trivial
  | some d =>
    refine (yields_bindingPlace (hcomes.named (hd d rfl))).bind fun place _ _ hcomes' hplace => ?_
    have hexposed (p : Place) (hp : p ∈ bindings.map (·.2)) := (hbindings p hp).mono hcomes'
    refine Yields.bind (yields_put ⟨⟨hplace.isOf, hplace.shows⟩, ?_, by rintro ⟨⟩, ?_, ?_, ?_, ?_⟩
      (hplace.writes (.inl rfl)) _) fun _ _ _ _ _ => .pure trivial
    · exact fun p hp => (hexposed p hp).seen
    · rintro p ⟨⟩
    · exact fun _ p hp => (hexposed p hp).exposes
    · rintro ⟨⟩
    · rintro ⟨⟩

/-! ## Names -/

theorem yields_loadName (ident : Ident) : Yields .block s cells (loadName ident) Own := by
  intro hs
  unfold loadName
  refine Yields.reading (a := s.scopes.find? ident.name) rfl ?_ hs
  cases hfind : s.scopes.find? ident.name with
  | some d =>
    exact (yields_readVersion ident.name (hs.named hfind)).bind fun place _ _ _ hplace =>
      yields_emit (by simpa [Op.reads] using hplace.usable) rfl
  | none =>
    refine .reading (a := s) rfl ?_
    split
    · exact yields_emit (by simp [Op.reads]) rfl
    · exact yields_emit (by simp [Op.reads]) rfl

theorem yields_storeName (ident : Ident) {value : Place} (hvalue : Usable value s cells)
    (origin : Option Nat) : Yields .block s cells (storeName ident value origin) Own := by
  intro hs
  unfold storeName
  refine Yields.reading (a := s.scopes.find? ident.name) rfl ?_ hs
  cases hfind : s.scopes.find? ident.name with
  | some d =>
    refine .reading (a := (s.env.ownerOf d == some s.frame.function.id) &&
      s.frame.uninitialized.contains d) rfl ?_
    split
    · exact .throw _
    · exact (yields_newVersion (hs.named hfind)).bind fun target _ _ hcomes htarget =>
        yields_store (hvalue.mono hcomes) htarget _ origin
  | none => exact yields_emit (by simpa [Op.reads] using hvalue) rfl

/-- A declaration of the function being filled without versions. -/
structure Unversioned (d : DeclId) (kind : DeclKind) (s : State) : Prop where
  declared : ∃ name, s.env.declaration? d = some ⟨name, kind, s.frame.function.id, 0⟩
  named : s.env.isTemporary d = false

theorem yields_newDeclaration (name : String) (kind : DeclKind) (hkind : kind ≠ .temporary) :
    Yields .block s cells (newDeclaration name kind) fun d s' _ =>
      d = s.nextDeclaration ∧ Unversioned d kind s' := by
  refine .of_run _ (newDeclaration_run name kind s) fun hs => ?_
  refine ⟨cells, .of_env hs (.declare hs.logs (some name) kind s.frame.function.id), rfl, ⟨some name, ?_⟩, ?_⟩
  · exact (Environment.declaration?_declare ..).trans (if_pos rfl)
  · have htemporary := Environment.isTemporary_declare s.env (some name) kind s.frame.function.id
    exact htemporary.trans (beq_false_of_ne hkind)

/-- The scopes change and bind nothing but variables. -/
theorem yields_onScopes {change : Scopes → Option Scopes}
    (hchange : ∀ scopes, change s.scopes = some scopes → ∀ d, Scopes.Binds scopes d →
      Scopes.Binds s.scopes d ∨ s.env.isTemporary d = false) :
    Yields .block s cells (onScopes change) fun _ s' _ => ∃ scopes, s' = { s with scopes } := by
  intro hs _ u s' hrun
  obtain ⟨scopes, hscopes, rfl⟩ := onScopes_run hrun
  refine ⟨cells, .of_scopes hs fun d hd => ?_, scopes, rfl⟩
  rcases hchange scopes hscopes d hd with hd | hd
  · exact hs.scopes d hd
  · exact hd

/-- The scopes bind a variable. -/
theorem yields_binds {bind : DeclId → Scopes → Option Scopes}
    (hbind : ∀ scopes scopes' d, bind d scopes = some scopes' → Scopes.BindsOnly scopes scopes' d)
    (hd : s.env.isTemporary d = false) :
    Yields .block s cells (onScopes (bind d)) fun _ s' _ => ∃ scopes, s' = { s with scopes } :=
  yields_onScopes fun scopes hscopes x hx => by
    rcases hbind _ scopes d hscopes x hx with hx | rfl
    · exact .inl hx
    · exact .inr hd

/-- A declaration that starts with a version. -/
structure Starting (d : DeclId) (kind : DeclKind) (p : Place) (s : State) (cells : List Cell) : Prop
    extends Due d p s cells where
  owner : s.env.ownerOf d = some s.frame.function.id
  kind : s.env.kindOf d = kind
  version : p.cell.version = .numbered 0

theorem yields_firstVersion {kind : DeclKind} (h : Unversioned d kind s) :
    Yields .block s cells (newVersion d) (Starting d kind) none (some d) := by
  refine .of_run _ (newVersion_run d s) fun hs => ?_
  obtain ⟨cells', hcomes, hdue⟩ := Comes.withVersion (hs.weaken (some d)) h.named
  obtain ⟨name, hdeclared⟩ := h.declared
  have howner : s.env.ownerOf d = some s.frame.function.id := by
    rw [Environment.ownerOf, hdeclared]
    rfl
  refine ⟨cells', hcomes, hdue, hcomes.id ▸ hcomes.env.ownerOf howner, ?_, ?_⟩
  · rw [hcomes.env.kind d (Environment.index_lt_of_named h.named), Environment.kindOf, hdeclared]
    rfl
  · change Version.numbered (((s.env.declaration? d).map (·.nextVersion)).getD 0) = _
    rw [hdeclared]
    rfl

/-- A declaration is added, bound and given its first version. -/
theorem yields_introduce (name : String) (kind : DeclKind) (hkind : kind ≠ .temporary)
    {bind : DeclId → Scopes → Option Scopes}
    (hbind : ∀ scopes scopes' d, bind d scopes = some scopes' → Scopes.BindsOnly scopes scopes' d)
    {next : DeclId → Place → Lower β} {R : β → State → List Cell → Prop}
    (hnext : ∀ place s' cells', Comes .block s cells s' cells' (some s.nextDeclaration) →
      Starting s.nextDeclaration kind place s' cells' →
      Yields extent s' cells' (next s.nextDeclaration place) R (some s.nextDeclaration) finish) :
    Yields extent s cells (do
      let d ← newDeclaration name kind
      onScopes (bind d)
      let place ← newVersion d
      next d place) R none finish := by
  refine (yields_newDeclaration name kind hkind).bind fun d s₁ _ h₁ hd => ?_
  obtain ⟨rfl, hd⟩ := hd
  refine (yields_binds hbind hd.named).bind fun _ s₂ _ h₂ hscopes => ?_
  obtain ⟨scopes, rfl⟩ := hscopes
  have hfirst : Unversioned s.nextDeclaration kind { s₁ with scopes } := ⟨hd.declared, hd.named⟩
  exact (yields_firstVersion hfirst).bind fun place _ _ h₃ hplace =>
    hnext place _ _ ((h₁.trans h₂).trans h₃) hplace

/-- What a name in a pattern binds is written next. -/
theorem yields_target (use : PatternUse) (name : String) {next : Place → Lower β}
    {R : β → State → List Cell → Prop}
    (hnext : ∀ d p s' cells', Due d p s' cells' →
      Yields extent s' cells' (next p) R (some d) finish) :
    Yields extent s cells (use.target name >>= next) R none finish := by
  cases use with
  | declaration =>
    simp only [PatternUse.target, bind_assoc]
    exact (yields_declared name).bind fun d _ _ _ hd =>
      (yields_bindingPlace hd).bind fun p _ _ _ hp => hnext d p _ _ hp
  | assignment =>
    simp only [PatternUse.target, bind_assoc]
    exact (yields_declared name).bind fun d _ _ _ hd =>
      (yields_newVersion hd).bind fun p _ _ _ hp => hnext d p _ _ hp
  | parameter =>
    simp only [PatternUse.target, bind_assoc]
    exact yields_introduce name .parameter nofun (fun _ _ _ => Scopes.bindsOnly_bind?)
      fun p _ _ _ hp => hnext _ p _ _ hp.toDue

/-! ## Scopes -/

theorem yields_declare (name : String) (kind : DeclKind) (hkind : kind ≠ .temporary)
    {bind : String → DeclId → Scopes → Option Scopes}
    (hbind : ∀ scopes scopes' d, bind name d scopes = some scopes' →
      Scopes.BindsOnly scopes scopes' d) :
    Yields .block s cells (declare name kind bind)
      (fun d s' cells' => d = s.nextDeclaration ∧ ∃ p, Starting d kind p s' cells') none
      (some s.nextDeclaration) := by
  refine yields_introduce name kind hkind hbind fun p s₁ cells₁ _ hp => ?_
  refine .of_run { s₁ with frame := { s₁.frame with
    unclaimed := KeySet.add s₁.frame.unclaimed s.nextDeclaration } } rfl fun hs => ⟨cells₁, ?_, rfl, p, ?_⟩
  · have hsame : s₁.frame.SameCode { s₁.frame with
        unclaimed := KeySet.add s₁.frame.unclaimed s.nextDeclaration } := .of_function rfl rfl rfl
    refine .of_sameCode hs (hs.frame.congr hs.frame.function hsame rfl rfl rfl fun d' hd' => ?_) hsame rfl
    rw [KeySet.contains_add, Bool.or_eq_true, decide_eq_true_eq] at hd'
    rcases hd' with rfl | hd'
    · exact hp.owner
    · exact hs.frame.unclaimed d' hd'
  · exact ⟨⟨⟨hp.isOf, hp.declaration, hp.named, hp.shown⟩, hp.latest⟩, hp.owner, hp.kind, hp.version⟩

/-- In other functions it does not matter whether versions are written. -/
theorem State.Fits.undeclared (h : s.Fits cells due) (hkind : s.frame.function.kind ≠ .declaration)
    (due' : Option DeclId) : s.Fits cells due' :=
  { h with frame := { h.frame with settles := fun hkind' => absurd hkind' hkind } }

/-- Hoisted declarations may be read before they are written. -/
theorem State.Fits.hoisted {kind : DeclKind} (h : s.Fits cells (some d))
    (hp : Starting d kind p s cells) (hkind : kind = .varKind ∨ kind = .functionKind) :
    s.Fits cells :=
  { h with frame := { h.frame with
      settles := fun hdeclaration => (h.frame.settles hdeclaration).hoisted fun hplain p' hp' => by
        obtain rfl := hp.latest hdeclaration hplain p' hp'
        rw [← hp.kind, ← hp.declaration] at hkind
        exact ⟨hkind, hp.version⟩ } }

theorem yields_declareHoisted (idents : List Ident) :
    Yields .block s cells (declareHoisted idents) Anything := by
  induction idents generalizing s cells with
  | nil => exact .pure trivial
  | cons ident idents ih =>
    unfold declareHoisted
    refine .reading (a := s) rfl ?_
    dsimp only
    split
    · refine (yields_declare ident.name .varKind (by decide) fun _ _ _ => Scopes.bindsOnly_hoist?).bind
        fun d _ _ _ hd => ?_
      obtain ⟨rfl, p, hp⟩ := hd
      exact ih.refit fun hs => hs.hoisted hp (.inl rfl)
    · exact ih

theorem yields_declareVariable (name : String) (kind : DeclKind) (hkind : kind ≠ .temporary) :
    Yields .block s cells (declareLexical.declareVariable name kind) Anything :=
  (yields_declare name kind hkind fun _ _ _ => Scopes.bindsOnly_bind?).bind fun d _ _ _ hd => by
    obtain ⟨rfl, -⟩ := hd
    exact yields_onFrame (fun h => { h with settles := fun hkind => (h.settles hkind).uninitialized })
      (.of_function rfl rfl rfl) rfl

/-- Functions that are to be built, with their first versions. -/
abbrev Awaiting (functions : List (DeclId × Place)) (s : State) (cells : List Cell) : Prop :=
  ∀ e ∈ functions, Named e.1 e.2 s cells

theorem yields_declareLexical (bindings : List LexicalBinding) :
    Yields .block s cells (declareLexical bindings) Awaiting := by
  induction bindings generalizing s cells with
  | nil => exact .pure (by rintro p ⟨⟩)
  | cons binding bindings ih =>
    unfold declareLexical
    cases binding.kind with
    | functionBinding =>
      refine yields_introduce _ .functionKind (by decide) (fun _ _ _ => Scopes.bindsOnly_bind?)
        fun place _ _ _ hplace => (Yields.bind ih fun rest _ _ hcomes hrest => .pure ?_).refit
          fun hs => hs.hoisted hplace (.inr rfl)
      exact List.forall_mem_cons.2 ⟨hplace.toNamed.mono hcomes, hrest⟩
    | letBinding => exact (yields_declareVariable _ .letKind (by decide)).bind fun _ _ _ _ _ => ih
    | constBinding => exact (yields_declareVariable _ .constKind (by decide)).bind fun _ _ _ _ _ => ih
    | classBinding => exact (yields_declareVariable _ .classKind (by decide)).bind fun _ _ _ _ _ => ih

theorem Yields.inScope {act : Lower Unit} (kind : ScopeKind)
    (h : ∀ s' cells', s'.frame.function.kind = s.frame.function.kind →
      Yields .function s' cells' act Anything) :
    Yields .function s cells (inScope kind act) Anything := by
  refine (yields_onScopes fun scopes hscopes d hd => ?_).bind fun _ _ _ h₁ _ =>
    (h _ _ h₁.onward.kind).andThen fun _ s₁ _ _ _ =>
      (yields_onScopes fun scopes hscopes d hd => ?_).bind fun _ _ _ _ _ => .pure trivial
  · obtain rfl := Option.some.inj hscopes
    obtain ⟨scope, hscope, name, hget⟩ := hd
    rcases List.mem_cons.1 hscope with rfl | hscope
    · cases hget
    · exact .inl ⟨scope, hscope, name, hget⟩
  · obtain ⟨scope, hscope, hbinds⟩ := hd
    cases hall : s₁.scopes with
    | nil =>
      rw [hall] at hscopes
      cases hscopes
    | cons first rest =>
      rw [hall] at hscopes
      cases hscopes
      exact .inl ⟨scope, List.mem_cons_of_mem _ hscope, hbinds⟩

/-! ## Functions -/

/-- A function begins. -/
theorem State.Fits.enter (h : s.Fits cells) (f : Function)
    (hf : f.Lowered s.env cells f.id) (hnone : ∀ id b, f.blocks.get? id ≠ some b)
    (hentry : f.entry.index < s.env.nextBlock.index) :
    ({ s with
       frame := Frame.start f
       outer := (s.frame.function.id, s.frame.versions) :: s.outer } : State).Fits cells where
  logs := h.logs
  scopes := h.scopes
  frame :=
    { function := hf
      opened := Block.lowered_empty ..
      versions := by rintro d p ⟨⟩
      breaks := by rintro loop ⟨⟩
      unclaimed := by rintro d ⟨⟩
      settles := fun _ => .start hnone hentry }
  outer := List.forall_mem_cons.2 ⟨h.frame.versions, h.outer⟩
  functions := h.functions
  turns := h.turns

/-- The function being filled, done. -/
theorem State.Fits.done (h : s.Fits cells) (hheader : s.frame.inHeader = false) :
    (s.frame.close (.ret none)).recomputeFlow.Lowered s.env cells s.frame.function.id := by
  have hending : Ending (.ret none) s cells := ⟨by rintro p ⟨⟩, by rintro p ⟨⟩⟩
  exact (hending.lowered h hheader).recomputeFlow

/-- A declared function runs straight from its entry to an end, once it is done. -/
theorem State.Fits.done_inTurn (h : s.Fits cells) (hkind : s.frame.function.kind = .declaration) :
    (s.frame.close (.ret none)).recomputeFlow.RunsInTurn s.env := by
  have hsettles := h.frame.settles hkind
  by_cases hplain : IsPlain s.frame.function.blocks
  · exact (hsettles.straight hplain).runsInTurn hplain nofun (by rintro p ⟨⟩)
  · exact (hsettles.left_endBlock hplain).2

/-- The frame around comes back as it was, so that the block around goes on. -/
theorem yields_inFunction (id : FuncId) (name : Option String) (kind : FunctionKind)
    (origin : Option Nat) {fill : Lower Unit}
    (hfill : ∀ s' cells', s'.frame.function.kind = kind → Yields .function s' cells' fill Anything) :
    Yields .block s cells (inFunction id name kind origin fill) Anything := by
  refine yields_newBlock.bind fun entry s₁ cells₁ _ hnew => ?_
  intro hs₁ _ id' s' hrun
  obtain ⟨around, s₂, hframe, hrun⟩ := bind_eq_ok hrun
  cases hframe
  obtain ⟨u, s₂, henter, hrun⟩ := bind_eq_ok hrun
  cases henter
  obtain ⟨u, s₃, hfilled, hrun⟩ := bind_eq_ok hrun
  obtain ⟨u, s₄, hleave, hrun⟩ := bind_eq_ok hrun
  cases hleave
  obtain ⟨-, rfl⟩ := pure_run hrun
  have hstart := hs₁.enter _ (Function.lowered_start s₁.env cells₁ id name
    (some s₁.frame.function.id) kind origin entry) nofun hnew.handed
  obtain ⟨cells₃, hcomes, -⟩ := Yields.inScope .function hfill hstart (fun _ => rfl) u s₃ hfilled
  have hid : s₃.frame.function.id = id := hcomes.id
  have hfits : State.Fits { s₃ with
      frame := s₁.frame
      outer := s₃.outer.tail
      functions := s₃.functions.insert id (s₃.frame.close (.ret none)).recomputeFlow } cells₃ := by
    refine ⟨hcomes.fits.logs, hcomes.fits.scopes, hs₁.frame.advance hs₁.logs hcomes.env,
      fun o ho => hcomes.fits.outer o (List.mem_of_mem_tail ho), fun id' f hf => ?_,
      fun id' f hf hkind => ?_⟩
    · rw [Table.get?_insert] at hf
      split at hf
      · next heq =>
        obtain rfl := Option.some.inj hf
        rw [heq, ← hid]
        exact hcomes.fits.done hcomes.inHeader
      · exact hcomes.fits.functions id' f hf
    · rw [Table.get?_insert] at hf
      split at hf
      · obtain rfl := Option.some.inj hf
        exact hcomes.fits.done_inTurn hkind
      · exact hcomes.fits.turns id' f hf hkind
  exact ⟨cells₃, ⟨hs₁.logs, hcomes.env, hfits, rfl, rfl, fun _ _ hc => hc, .refl _, fun _ => .refl _⟩,
    trivial⟩

/-! ## Exports -/

theorem yields_exportLocals (origin : Option Nat) (locals : List (DeclId × String))
    (hlocals : ∀ e ∈ locals, s.env.isTemporary e.1 = false) :
    Yields .block s cells (exportLocals origin locals) (Known id) := by
  induction locals generalizing s cells with
  | nil => exact .pure (by rintro p ⟨⟩)
  | cons e more ih =>
    obtain ⟨hd, hmore⟩ := List.forall_mem_cons.1 hlocals
    refine .reading (a := s) rfl ((yields_readVersion _ hd).bind fun place _ _ h₁ hplace => ?_)
    refine (yields_capture _).bind fun _ s₂ cells₂ h₂ hcaptured => ?_
    have hexposed := (hplace.mono h₂).toNamed.exposed hcaptured
    refine (yields_emitExport ?_ rfl rfl ?_ _ _).bind fun specifier _ _ h₃ hspecifier => ?_
    · simpa [Op.reads] using (hplace.mono h₂).usable
    · simpa [Op.reads] using fun _ => hexposed.exposes
    · have hmore e he := ((h₁.trans h₂).trans h₃).named (hmore e he)
      exact (ih hmore).bind fun rest _ _ h₄ hrest =>
        .pure (List.forall_mem_cons.2 ⟨hspecifier.toUsable.mono h₄, hrest⟩)

theorem yields_exportAll (origin : Option Nat) {locals : List (DeclId × String)}
    (hlocals : ∀ e ∈ locals, s.env.isTemporary e.1 = false) :
    Yields .block s cells (exportAll origin locals) Anything := by
  refine (yields_exportLocals origin locals hlocals).bind fun _ _ _ _ hspecifiers => ?_
  refine Yields.bind (yields_emit ?_ rfl) fun _ _ _ _ _ => .pure trivial
  exact hspecifiers

end Whittle.Lowering
