import Mathlib.Tactic.Common
import Whittle.Proofs.Lowering.Records

/-!
# What every step of lowering keeps

A configuration is sound when all its functions are: those being filled and those that are done.  A
function keeps its blocks to itself, no edge leads back to its entry or from a block to itself, and its
records tell the truth about its code.  Steps lead from sound configurations to sound ones
(`Sound.steps`).
-/

namespace Whittle.Lowering

open Ir

/-- The code of a block as far as it is filled; that of the entry begins with the header. -/
def Frame.code (frame : Frame) (b : BlockId) : List Instr :=
  (if b = frame.function.entry then frame.function.header else []) ++
    if b = frame.block then frame.filled.reverse
    else ((frame.function.blocks.get? b).map (·.instructions)).getD []

/-- The blocks of a function are its own, and so are those that their edges lead to. -/
structure Charted (home : Table BlockId FuncId) (id : FuncId) (entry : BlockId)
    (blocks : Table BlockId Block) : Prop where
  own : ∀ b, blocks.contains b = true → home.get? b = some id
  edges : ∀ b block, blocks.get? b = some block → ∀ t ∈ block.successors,
    t ≠ b ∧ t ≠ entry ∧ home.get? t = some id

/-- A version of a declaration, as a write makes it. -/
structure IsVersion (env : Environment) (e : DeclId × Place) : Prop where
  declared : e.1.index < env.declarations.size
  declaration : e.2.declaration = e.1
  isNumbered : e.2.cell.version.isNumbered = true

/-- A function that is being filled. -/
structure Open (env : Environment) (home : Table BlockId FuncId) (frame : Frame) (plan : Plan) :
    Prop where
  id_lt : frame.function.id.index < env.nextFunc.index
  charted : Charted home frame.function.id frame.function.entry frame.function.blocks
  block_new : frame.function.blocks.contains frame.block = false
  block_home : home.get? frame.block = some frame.function.id
  entry : frame.function.entry = frame.block ∨
    frame.function.blocks.contains frame.function.entry = true
  /-- What is set aside is empty and belongs to the function. -/
  reserved : ∀ b ∈ plan.reserved, frame.function.blocks.contains b = false ∧ b ≠ frame.block ∧
    home.get? b = some frame.function.id
  reserved_nodup : plan.reserved.Nodup
  /-- The exits of the loops around are set aside. -/
  exits : ∀ b ∈ frame.loops.map (·.exit), b ∈ plan.reserved
  exits_nodup : (frame.loops.map (·.exit)).Nodup
  heads : ∀ b ∈ plan.heads, frame.function.blocks.contains b = true ∧ b ≠ frame.function.entry
  /-- The header is filled before everything else. -/
  header : frame.inHeader = true → frame.filled = [] ∧ frame.block = frame.function.entry
  tells : Tells env frame.function.id frame.code (plan.due.map fun e => (frame.block, e.1))
  hoisted : ∀ e ∈ plan.hoisted, IsVersion env e ∧
    (env.IsLocal frame.function.id e.1 → env.versionsOf e.1 = [⟨frame.block, e.2⟩])
  due : ∀ e, plan.due = some e → IsVersion env e ∧
    (env.IsLocal frame.function.id e.1 → leftBy (env.versionsOf e.1) frame.block = some e.2)
  unjoined : frame.function.phis = []

/-- A function that is done. -/
structure Closed (env : Environment) (home : Table BlockId FuncId) (id : FuncId) (f : Function) :
    Prop where
  id_eq : f.id = id
  id_lt : id.index < env.nextFunc.index
  flow : f.flow = Flow.compute f.entry (edgesOf f.blocks)
  entry : f.blocks.contains f.entry = true
  charted : Charted home id f.entry f.blocks
  tells : Tells env id f.code none
  unjoined : f.phis = []

/-- All functions of a configuration are in order. -/
structure Sound (c : Config) : Prop where
  records : c.state.env.Recorded c.home
  handed : ∀ b id, c.home.get? b = some id → b.index < c.state.env.nextBlock.index
  scopes : ∀ d, Scopes.Binds c.state.scopes d → c.state.env.declares d = true
  current : Open c.state.env c.home c.state.frame c.plan
  saved : ∀ o ∈ c.saved, Open c.state.env c.home o.1 o.2
  closed : ∀ id f, c.state.functions.get? id = some f → Closed c.state.env c.home id f
  /-- The functions are different ones. -/
  ids : (c.state.frame.function.id :: c.saved.map (·.1.function.id)).Nodup
  apart : ∀ id ∈ c.state.frame.function.id :: c.saved.map (·.1.function.id),
    c.state.functions.contains id = false

variable {env env' : Environment} {home home' : Table BlockId FuncId} {frame frame' : Frame}
  {plan plan' : Plan} {id owner : FuncId}

/-! ## What other functions do -/

theorem Charted.grow {entry : BlockId} {blocks : Table BlockId Block} (h : Charted home id entry blocks)
    (hhome : ∀ b id, home.get? b = some id → home'.get? b = some id) :
    Charted home' id entry blocks := by
  refine ⟨fun b hb => hhome b id (h.own b hb), fun b block hb t ht => ?_⟩
  obtain ⟨hne, hentry, ht⟩ := h.edges b block hb t ht
  exact ⟨hne, hentry, hhome t id ht⟩

theorem IsVersion.grow {e : DeclId × Place} (h : IsVersion env e) (hgrows : env.Grows owner env') :
    IsVersion env' e :=
  ⟨Nat.lt_of_lt_of_le h.declared hgrows.size, h.declaration, h.isNumbered⟩

theorem Open.grow (h : Open env home frame plan) (hgrows : env.Grows owner env')
    (hhome : ∀ b id, home.get? b = some id → home'.get? b = some id)
    (hversions : ∀ d, env'.IsLocal frame.function.id d → env'.versionsOf d = env.versionsOf d) :
    Open env' home' frame plan where
  id_lt := Nat.lt_of_lt_of_le h.id_lt hgrows.nextFunc
  charted := h.charted.grow hhome
  block_new := h.block_new
  block_home := hhome _ _ h.block_home
  entry := h.entry
  reserved b hb := by
    obtain ⟨hnew, hne, hb⟩ := h.reserved b hb
    exact ⟨hnew, hne, hhome _ _ hb⟩
  reserved_nodup := h.reserved_nodup
  exits := h.exits
  exits_nodup := h.exits_nodup
  heads := h.heads
  header := h.header
  tells := h.tells.grow hgrows hversions
  hoisted e he := by
    obtain ⟨hversion, honly⟩ := h.hoisted e he
    refine ⟨hversion.grow hgrows, fun hlocal => ?_⟩
    rw [hversions _ hlocal, honly (hgrows.isLocal hlocal hversion.declared)]
  due e he := by
    obtain ⟨hversion, hleft⟩ := h.due e he
    refine ⟨hversion.grow hgrows, fun hlocal => ?_⟩
    rw [hversions _ hlocal, hleft (hgrows.isLocal hlocal hversion.declared)]
  unjoined := h.unjoined

theorem Closed.grow {f : Function} (h : Closed env home id f) (hgrows : env.Grows owner env')
    (hhome : ∀ b id, home.get? b = some id → home'.get? b = some id) (hne : id ≠ owner) :
    Closed env' home' id f :=
  ⟨h.id_eq, Nat.lt_of_lt_of_le h.id_lt hgrows.nextFunc, h.flow, h.entry, h.charted.grow hhome,
    h.tells.grow hgrows fun _ hd => hgrows.versions_of_ne hne hd, h.unjoined⟩

/-- What a step in the current function has to see to: itself, the records and the scopes. -/
theorem Sound.advance {s s' : State} {saved : List (Frame × Plan)} (h : Sound ⟨s, plan, saved, home⟩)
    (hgrows : s.env.Grows s.frame.function.id s'.env)
    (hhome : ∀ b id, home.get? b = some id → home'.get? b = some id)
    (hrecords : s'.env.Recorded home')
    (hhanded : ∀ b id, home'.get? b = some id → b.index < s'.env.nextBlock.index)
    (hscopes : ∀ d, Scopes.Binds s'.scopes d → s'.env.declares d = true)
    (hid : s'.frame.function.id = s.frame.function.id) (hfunctions : s'.functions = s.functions)
    (hcurrent : Open s'.env home' s'.frame plan') : Sound ⟨s', plan', saved, home'⟩ where
  records := hrecords
  handed := hhanded
  scopes := hscopes
  current := hcurrent
  saved o ho := by
    refine (h.saved o ho).grow hgrows hhome fun d hd => hgrows.versions_of_ne ?_ hd
    rintro heq
    exact (List.nodup_cons.1 h.ids).1 (List.mem_map.2 ⟨o, ho, heq⟩)
  closed id f hf := by
    rw [hfunctions] at hf
    refine (h.closed id f hf).grow hgrows hhome ?_
    rintro rfl
    have hcontains := h.apart _ List.mem_cons_self
    rw [Table.contains, hf] at hcontains
    cases hcontains
  ids := by
    rw [hid]
    exact h.ids
  apart := by
    rw [hid, hfunctions]
    exact h.apart

/-! ## Quiet steps -/

theorem Open.congr (h : Open env home frame plan)
    (hfunction : ∃ params isConcise, frame'.function = { frame.function with params, isConcise })
    (hblock : frame'.block = frame.block) (hfilled : frame'.filled = frame.filled)
    (hheader : frame'.inHeader = true → frame.filled = [] ∧ frame.block = frame.function.entry)
    (hexits : frame'.loops.map (·.exit) = frame.loops.map (·.exit)) :
    Open env home frame' plan := by
  obtain ⟨params, isConcise, hfunction⟩ := hfunction
  have hid : frame'.function.id = frame.function.id := by rw [hfunction]
  have hentry : frame'.function.entry = frame.function.entry := by rw [hfunction]
  have hblocks : frame'.function.blocks = frame.function.blocks := by rw [hfunction]
  have hcode (b : BlockId) : frame'.code b = frame.code b := by
    rw [Frame.code, Frame.code, hentry, hblocks, hblock, hfilled, hfunction]
  constructor
  · rw [hid]; exact h.id_lt
  · rw [hid, hentry, hblocks]; exact h.charted
  · rw [hblocks, hblock]; exact h.block_new
  · rw [hid, hblock]; exact h.block_home
  · rw [hentry, hblock, hblocks]; exact h.entry
  · rw [hblocks, hblock, hid]; exact h.reserved
  · exact h.reserved_nodup
  · rw [hexits]; exact h.exits
  · rw [hexits]; exact h.exits_nodup
  · rw [hblocks, hentry]; exact h.heads
  · rw [hfilled, hblock, hentry]; exact hheader
  · rw [hid, hblock]; exact h.tells.congr hcode
  · rw [hid, hblock]; exact h.hoisted
  · rw [hid, hblock]; exact h.due
  · rw [hfunction]; exact h.unjoined

theorem declares_of_grows (hgrows : env.Grows owner env') {d : DeclId} (h : env.declares d = true) :
    env'.declares d = true :=
  Environment.declares_iff.2 (Nat.lt_of_lt_of_le (Environment.declares_iff.1 h) hgrows.size)

theorem Sound.quiet {s s' : State} {saved : List (Frame × Plan)} (h : Sound ⟨s, plan, saved, home⟩)
    (hquiet : Quiet s s') : Sound ⟨s', plan, saved, home⟩ := by
  obtain ⟨captured, functions, henv, hcaptured⟩ := hquiet.env
  have hgrows : s.env.Grows s.frame.function.id s'.env := by
    rw [henv]
    exact .of_same rfl rfl hcaptured (Nat.le_refl _)
  have hversions : s'.env.versions = s.env.versions := by rw [henv]
  have hid : s'.frame.function.id = s.frame.function.id := by
    obtain ⟨_, hfunction⟩ := hquiet.function
    rw [hfunction]
  refine h.advance hgrows (fun _ _ hb => hb) ?_ ?_ ?_ hid hquiet.functions ?_
  · exact h.records.grow hgrows hversions (by rw [henv]) fun _ _ hb => hb
  · intro b id hb
    rw [henv]
    exact h.handed b id hb
  · intro d hd
    refine declares_of_grows hgrows ?_
    rcases hquiet.scopes d hd with hd | hd
    · exact h.scopes d hd
    · exact hd
  · have hcurrent := h.current.grow hgrows (fun _ _ hb => hb) fun d _ => by
      rw [Environment.versionsOf, Environment.versionsOf, hversions]
    exact hcurrent.congr ⟨_, hquiet.function⟩ hquiet.block hquiet.filled
      (fun hheader => h.current.header (hquiet.inHeader ▸ hheader)) hquiet.exits

/-! ## Blocks and declarations -/

theorem get?_insert_new {b : BlockId} (hnew : ∀ id, home.get? b ≠ some id) (id : FuncId) :
    ∀ b' id', home.get? b' = some id' → (home.insert b id).get? b' = some id' := by
  intro b' id' hb'
  rw [Table.get?_insert, if_neg]
  · exact hb'
  · rintro rfl
    exact hnew id' hb'

theorem Sound.not_handed {c : Config} (h : Sound c) (id : FuncId) :
    c.home.get? c.state.env.nextBlock ≠ some id := fun hb =>
  Nat.lt_irrefl _ (h.handed _ _ hb)

theorem Sound.newBlock {s : State} {saved : List (Frame × Plan)} (h : Sound ⟨s, plan, saved, home⟩) :
    Sound ⟨{ s with env := s.env.newBlock.2 },
      { plan with reserved := s.env.nextBlock :: plan.reserved }, saved,
      home.insert s.env.nextBlock s.frame.function.id⟩ := by
  have hgrows : s.env.Grows s.frame.function.id s.env.newBlock.2 :=
    .of_same rfl rfl (fun _ hd => hd) (Nat.le_refl _)
  have hhome := get?_insert_new h.not_handed s.frame.function.id
  have hcurrent := h.current.grow hgrows hhome fun _ _ => rfl
  refine h.advance hgrows hhome (h.records.grow hgrows rfl (Nat.le_refl _) hhome) ?_
    h.scopes rfl rfl { hcurrent with reserved := ?_, reserved_nodup := ?_, exits := ?_ }
  · intro b id hb
    change _ < s.env.nextBlock.index + 1
    rw [Table.get?_insert] at hb
    split at hb
    · rename_i heq
      rw [heq]
      exact Nat.lt_succ_self _
    · exact Nat.lt_succ_of_lt (h.handed b id hb)
  · intro b hb
    rcases List.mem_cons.1 hb with rfl | hb
    · refine ⟨?_, ?_, ?_⟩
      · rw [Bool.eq_false_iff]
        intro hcontains
        exact h.not_handed _ (h.current.charted.own _ hcontains)
      · intro heq
        refine h.not_handed s.frame.function.id ?_
        change home.get? s.env.nextBlock = _
        rw [heq]
        exact h.current.block_home
      · rw [Table.get?_insert, if_pos rfl]
    · exact hcurrent.reserved b hb
  · refine List.nodup_cons.2 ⟨fun hb => ?_, h.current.reserved_nodup⟩
    exact h.not_handed _ (h.current.reserved _ hb).2.2
  · intro b hb
    exact List.mem_cons_of_mem _ (h.current.exits b hb)

theorem Sound.declare {s : State} {saved : List (Frame × Plan)} (h : Sound ⟨s, plan, saved, home⟩)
    (name : String) (kind : DeclKind) : Sound ⟨s.declare name kind, plan, saved, home⟩ := by
  have hgrows := s.env.grows_declare (some name) kind s.frame.function.id
  exact h.advance hgrows (fun _ _ hb => hb) (h.records.grow hgrows rfl (Nat.le_refl _) fun _ _ hb => hb)
    h.handed (fun d hd => declares_of_grows hgrows (h.scopes d hd)) rfl rfl
    (h.current.grow hgrows (fun _ _ hb => hb) fun _ _ => rfl)

/-! ## Instructions -/

/-- Adding an instruction changes the header or the current block. -/
theorem Frame.put_eq (frame : Frame) (i : Instr) : ∃ header filled, frame.put i =
    { frame with function := { frame.function with header }, filled } := by
  rw [Frame.put]
  split
  · exact ⟨_, _, rfl⟩
  · exact ⟨_, _, rfl⟩

theorem Frame.code_put (frame : Frame)
    (hheader : frame.inHeader = true → frame.filled = [] ∧ frame.block = frame.function.entry)
    (i : Instr) (b : BlockId) : (frame.put i).code b = extended frame.code frame.block i b := by
  rw [Frame.put, extended]
  split
  · rename_i hin
    obtain ⟨hfilled, hblock⟩ := hheader hin
    simp only [Frame.code]
    by_cases hb : b = frame.function.entry
    · simp [hb, hblock, hfilled]
    · simp [hb, hblock]
  · simp only [Frame.code]
    by_cases hb : b = frame.block
    · simp [hb]
    · simp [hb]

/-- Adding an instruction only concerns what the records tell. -/
theorem Open.put (h : Open env home frame plan) (i : Instr) {due : Option (DeclId × Place)}
    (htells : Tells env frame.function.id (extended frame.code frame.block i)
      (due.map fun e => (frame.block, e.1)))
    (hdue : ∀ e, due = some e → plan.due = some e) :
    Open env home (frame.put i) { plan with due } := by
  have hcode := frame.code_put h.header i
  have hfilled (hin : (frame.put i).inHeader = true) :
      (frame.put i).filled = frame.filled ∧ frame.inHeader = true := by
    rw [Frame.put] at hin ⊢
    split
    · rename_i hheader
      exact ⟨rfl, hheader⟩
    · rename_i hheader
      rw [if_neg hheader] at hin
      exact absurd hin hheader
  obtain ⟨header, filled, heq⟩ := frame.put_eq i
  rw [heq] at hcode hfilled ⊢
  exact
    { h with
      header := fun hin => by
        obtain ⟨hsame, hin⟩ := hfilled hin
        obtain ⟨hnil, hblock⟩ := h.header hin
        exact ⟨hsame.trans hnil, hblock⟩
      tells := htells.congr hcode
      hoisted := h.hoisted
      due := fun e he => h.due e (hdue e he) }

theorem Sound.put {s : State} {saved : List (Frame × Plan)} (h : Sound ⟨s, plan, saved, home⟩)
    (place : Place) (op : Op) (origin : Option Nat) {due : Option (DeclId × Place)}
    (htells : ∀ i : Instr, i.defined = place :: op.target?.toList →
      Tells s.env s.frame.function.id (extended s.frame.code s.frame.block i)
        (due.map fun e => (s.frame.block, e.1)))
    (hdue : ∀ e, due = some e → plan.due = some e) :
    Sound ⟨s.put place op origin, { plan with due }, saved, home⟩ := by
  have hgrows : s.env.Grows s.frame.function.id (s.env.newInstrAt place origin op).2 :=
    .of_same rfl rfl (fun _ hd => hd) (Nat.le_refl _)
  have hopen := h.current.put (s.env.newInstrAt place origin op).1 (htells _ rfl) hdue
  refine h.advance hgrows (fun _ _ hb => hb)
    (h.records.grow hgrows rfl (Nat.le_refl _) fun _ _ hb => hb) h.handed h.scopes ?_ rfl
    (hopen.grow hgrows (fun _ _ hb => hb) fun _ _ => rfl)
  obtain ⟨header, filled, heq⟩ := s.frame.put_eq (s.env.newInstrAt place origin op).1
  rw [State.put, heq]

/-- The environment with a new temporary. -/
theorem Sound.newTemporary {s : State} {saved : List (Frame × Plan)}
    (h : Sound ⟨s, plan, saved, home⟩) :
    Sound ⟨{ s with env := (s.env.newTemporary s.frame.function.id).2 }, plan, saved, home⟩ := by
  have hgrows := s.env.grows_newTemporary s.frame.function.id
  exact h.advance hgrows (fun _ _ hb => hb)
    (h.records.grow hgrows rfl (Nat.le_succ _) fun _ _ hb => hb)
    h.handed (fun d hd => declares_of_grows hgrows (h.scopes d hd)) rfl rfl
    (h.current.grow hgrows (fun _ _ hb => hb) fun _ _ => rfl)

/-- A new temporary is a temporary. -/
theorem isVersion_newTemporary (env : Environment) (id : FuncId) :
    ((env.newTemporary id).1.declaration.index < (env.newTemporary id).2.declarations.size ∧
      (env.newTemporary id).1.cell.version.isNumbered = true) ∧
      (env.newTemporary id).2.isTemporary (env.newTemporary id).1.declaration = true := by
  refine ⟨⟨?_, rfl⟩, env.isTemporary_newTemporary id⟩
  rw [Environment.size_newTemporary]
  exact Nat.lt_succ_self _

theorem Sound.emit {s : State} {saved : List (Frame × Plan)} (h : Sound ⟨s, plan, saved, home⟩)
    (op : Op) (origin : Option Nat) (hop : op.target? = none) :
    Sound ⟨s.emit op origin, plan, saved, home⟩ := by
  refine h.newTemporary.put s.temporary op origin (fun i hi => ?_) fun e he => he
  refine h.newTemporary.current.tells.emit fun p hp => ?_
  rw [hi, hop, Option.toList_none, List.mem_singleton] at hp
  rw [hp]
  exact isVersion_newTemporary s.env s.frame.function.id

/-! ## Versions -/

section

variable {s : State} {reserved heads : List BlockId} {hoisted : List (DeclId × Place)}
  {saved : List (Frame × Plan)} {d : DeclId} {place : Place}

theorem Sound.bind (h : Sound ⟨s, ⟨reserved, heads, hoisted, some (d, place)⟩, saved, home⟩) (op : Op)
    (origin : Option Nat) (hop : op.target? = none) :
    Sound ⟨s.put place op origin, ⟨reserved, heads, hoisted, none⟩, saved, home⟩ := by
  obtain ⟨hversion, hleft⟩ := h.current.due _ rfl
  refine h.put place op origin (fun i hi => ?_) fun e he => by cases he
  rw [hop] at hi
  refine h.current.tells.write (by simp [hi]) hversion.declaration hversion.isNumbered
    hversion.declared hleft fun p hp => ?_
  rw [hi, Option.toList_none, List.mem_singleton] at hp
  exact .inl hp

theorem Sound.store (h : Sound ⟨s, ⟨reserved, heads, hoisted, some (d, place)⟩, saved, home⟩) (op : Op)
    (origin : Option Nat) (hop : op.target? = some place) :
    Sound ⟨s.emit op origin, ⟨reserved, heads, hoisted, none⟩, saved, home⟩ := by
  obtain ⟨hversion, hleft⟩ := h.newTemporary.current.due _ rfl
  refine h.newTemporary.put s.temporary op origin (fun i hi => ?_) fun e he => by cases he
  rw [hop] at hi
  refine h.newTemporary.current.tells.write (by simp [hi]) hversion.declaration hversion.isNumbered
    hversion.declared hleft fun p hp => ?_
  rw [hi, Option.toList_some] at hp
  simp only [List.mem_cons, List.not_mem_nil, or_false] at hp
  rcases hp with rfl | rfl
  · exact .inr (isVersion_newTemporary s.env s.frame.function.id)
  · exact .inl rfl

/-- The version that is due is the only one, and nobody writes it for now. -/
theorem Open.drop (h : Open env home frame ⟨reserved, heads, hoisted, some (d, place)⟩)
    (honly : env.versionsOf d = [⟨frame.block, place⟩]) :
    Open env home frame ⟨reserved, heads, hoisted, none⟩ :=
  { h with
    tells := h.tells.drop honly (h.due _ rfl).1.isNumbered
    due := fun e he => by cases he }

/-- A version that is the only one is written next. -/
theorem Open.take (h : Open env home frame ⟨reserved, heads, hoisted, none⟩)
    (hversion : IsVersion env (d, place))
    (honly : env.IsLocal frame.function.id d → env.versionsOf d = [⟨frame.block, place⟩]) :
    Open env home frame ⟨reserved, heads, hoisted, some (d, place)⟩ :=
  { h with
    tells := h.tells.weaken _
    due := fun e he => by
      cases he
      refine ⟨hversion, fun hlocal => ?_⟩
      rw [honly hlocal]
      exact leftBy_concat_self [] hversion.isNumbered }

theorem Sound.unclaim (h : Sound ⟨s, plan, saved, home⟩) (unclaimed uninitialized : KeySet DeclId) :
    Sound ⟨{ s with frame := { s.frame with unclaimed, uninitialized } }, plan, saved, home⟩ :=
  { h with
    current := h.current.congr ⟨_, _, rfl⟩ rfl rfl h.current.header rfl
    saved := h.saved
    closed := h.closed
    ids := h.ids
    apart := h.apart }

theorem Sound.replan (h : Sound ⟨s, plan, saved, home⟩)
    (hcurrent : Open s.env home s.frame plan') : Sound ⟨s, plan', saved, home⟩ :=
  { h with current := hcurrent }

theorem isVersion_of_recorded (h : env.Recorded home) {r : VersionRecord}
    (hr : r ∈ env.versionsOf d) : IsVersion env (d, r.place) where
  declared := h.wellKept.declared d (List.ne_nil_of_mem hr)
  declaration := h.wellKept.declaration d r hr
  isNumbered := by
    obtain ⟨n, hn⟩ := h.written d r hr
    rw [hn]
    rfl

theorem Sound.claim (h : Sound ⟨s, ⟨reserved, heads, hoisted, none⟩, saved, home⟩)
    (honly : s.env.versionsOf d = [⟨s.frame.block, place⟩]) :
    Sound ⟨s, ⟨reserved, heads, hoisted, some (d, place)⟩, saved, home⟩ :=
  h.replan <| h.current.take
    (isVersion_of_recorded h.records (r := ⟨s.frame.block, place⟩) (by simp [honly])) fun _ => honly

/-- Handing out a version records it; where the function does not own the variable, it is captured. -/
theorem State.withVersion_eq (s : State) (d : DeclId) : ∃ captured versions,
    s.withVersion d =
      { s with
        env := { (s.env.newPlace d).2.record d s.frame.block (s.version d) with captured }
        frame := { s.frame with versions } } ∧
    (∀ x, s.env.captured.contains x = true → captured.contains x = true) ∧
    (s.env.ownerOf d ≠ some s.frame.function.id → captured.contains d = true) := by
  have howner : ((s.env.newPlace d).2.record d s.frame.block (s.version d)).ownerOf d =
      s.env.ownerOf d := Environment.ownerOf_newPlace s.env d d
  rw [State.withVersion]
  simp only [howner]
  split
  · rename_i hown
    exact ⟨_, _, rfl, fun _ hx => hx, fun hnot => absurd (by simpa using hown) hnot⟩
  · refine ⟨KeySet.add s.env.captured d, _, rfl, fun x hx => ?_, fun _ => ?_⟩
    · rw [KeySet.contains_add, hx, Bool.or_true]
    · simp

theorem Sound.version (h : Sound ⟨s, ⟨reserved, heads, hoisted, none⟩, saved, home⟩)
    (hd : s.env.declares d = true) (hhoisted : ∀ e ∈ hoisted, e.1 ≠ d) :
    Sound ⟨s.withVersion d, ⟨reserved, heads, hoisted, some (d, s.version d)⟩, saved, home⟩ := by
  obtain ⟨captured, versions, heq, hcaptured, hforeign⟩ := s.withVersion_eq d
  have hdeclared := Environment.declares_iff.1 hd
  rw [heq]
  set env' : Environment :=
    { (s.env.newPlace d).2.record d s.frame.block (s.version d) with captured } with henv'
  have hversions (x : DeclId) : env'.versionsOf x = if x = d then
      s.env.versionsOf d ++ [⟨s.frame.block, s.version d⟩] else s.env.versionsOf x :=
    Environment.versionsOf_record ..
  have howner (x : DeclId) : env'.ownerOf x = s.env.ownerOf x := Environment.ownerOf_newPlace ..
  have hsize : env'.declarations.size = s.env.declarations.size := Environment.size_newPlace ..
  have hgrows : s.env.Grows s.frame.function.id env' := by
    have hplace := s.env.grows_newPlace s.frame.function.id d
    refine ⟨hplace.size, hplace.known, hplace.fresh, hcaptured, fun x hx hforeign' => ?_, hplace.nextFunc⟩
    rw [hversions, if_neg]
    rintro rfl
    rw [hforeign (howner x ▸ hforeign')] at hx
    cases hx
  refine h.advance hgrows (fun _ _ hb => hb) ⟨?_, fun x r hr => ?_, fun x r hr hx => ?_⟩ h.handed
    (fun x hx => declares_of_grows hgrows (h.scopes x hx)) rfl rfl ?_
  · have hkept : ((s.env.newPlace d).2.record d s.frame.block (s.version d)).WellKept :=
      h.records.wellKept.record_new rfl rfl hsize.ge (hsize ▸ hdeclared) rfl rfl
    exact hkept.grow rfl (Nat.le_refl _) (Nat.le_refl _)
  · rw [hversions] at hr
    split at hr
    · rcases List.mem_append.1 hr with hr | hr
      · exact h.records.written d r hr
      · rw [List.mem_singleton.1 hr]
        exact ⟨_, rfl⟩
    · exact h.records.written x r hr
  · rw [howner]
    rw [hversions] at hr
    split at hr
    · rename_i hxd
      subst hxd
      rcases List.mem_append.1 hr with hr | hr
      · exact h.records.home x r hr (hgrows.uncaptured hx)
      · rw [List.mem_singleton.1 hr]
        refine ⟨_, h.current.block_home, ?_⟩
        by_contra hnot
        rw [hforeign hnot] at hx
        cases hx
    · exact h.records.home x r hr (hgrows.uncaptured hx)
  · have htells : Tells env' s.frame.function.id s.frame.code (some (s.frame.block, d)) :=
      h.current.tells.version hgrows (fun x _ hxd => by rw [hversions, if_neg hxd])
        (by rw [hversions, if_pos rfl])
    have hcurrent : Open env' home s.frame ⟨reserved, heads, hoisted, some (d, s.version d)⟩ := by
      refine { h.current with
        id_lt := h.current.id_lt, tells := htells, hoisted := fun e he => ?_, due := fun e he => ?_ }
      · obtain ⟨hversion, honly⟩ := h.current.hoisted e he
        refine ⟨hversion.grow hgrows, fun hlocal => ?_⟩
        rw [hversions, if_neg (hhoisted e he)]
        exact honly (hgrows.isLocal hlocal hversion.declared)
      · cases he
        refine ⟨⟨hsize ▸ hdeclared, rfl, rfl⟩, fun _ => ?_⟩
        change leftBy (env'.versionsOf d) _ = _
        rw [hversions, if_pos rfl]
        exact leftBy_concat_self _ rfl
    exact hcurrent.congr ⟨_, _, rfl⟩ rfl rfl h.current.header rfl

theorem Sound.drop (h : Sound ⟨s, ⟨reserved, heads, hoisted, some (d, place)⟩, saved, home⟩)
    (honly : s.env.versionsOf d = [⟨s.frame.block, place⟩]) :
    Sound ⟨s, ⟨reserved, heads, hoisted, none⟩, saved, home⟩ :=
  h.replan (h.current.drop honly)

theorem Sound.hoist (h : Sound ⟨s, ⟨reserved, heads, hoisted, some (d, place)⟩, saved, home⟩)
    (honly : s.env.versionsOf d = [⟨s.frame.block, place⟩]) :
    Sound ⟨s, ⟨reserved, heads, hoisted ++ [(d, place)], none⟩, saved, home⟩ := by
  refine h.replan { h.current.drop honly with hoisted := fun e he => ?_ }
  rcases List.mem_append.1 he with he | he
  · exact h.current.hoisted e he
  · rw [List.mem_singleton.1 he]
    exact ⟨(h.current.due _ rfl).1, fun _ => honly⟩

theorem Sound.unhoist {e : DeclId × Place}
    (h : Sound ⟨s, ⟨reserved, heads, e :: hoisted, none⟩, saved, home⟩) :
    Sound ⟨s, ⟨reserved, heads, hoisted, some e⟩, saved, home⟩ := by
  obtain ⟨hversion, honly⟩ := h.current.hoisted e List.mem_cons_self
  have hcurrent : Open s.env home s.frame ⟨reserved, heads, hoisted, none⟩ :=
    { h.current with hoisted := fun e' he' => h.current.hoisted e' (List.mem_cons_of_mem _ he') }
  exact h.replan (hcurrent.take hversion honly)

theorem Sound.unkeep (h : Sound ⟨s, ⟨reserved, heads, hoisted, none⟩, saved, home⟩) :
    Sound ⟨s, ⟨reserved, heads, [], none⟩, saved, home⟩ :=
  h.replan { h.current with hoisted := fun e he => by cases he }

end

/-! ## Ends of blocks -/

theorem Open.ne_entry (h : Open env home frame plan) {b : BlockId} (hb : b ∈ plan.reserved) :
    b ≠ frame.function.entry := by
  rintro rfl
  obtain ⟨hnew, hne, -⟩ := h.reserved _ hb
  rcases h.entry with heq | hcontains
  · exact hne heq
  · rw [hcontains] at hnew
    cases hnew

/-- Ending a block moves its code to the others. -/
theorem Frame.code_endBlock (frame : Frame) (terminal : Terminal) {next : BlockId}
    (hnew : frame.function.blocks.contains next = false) (hne : next ≠ frame.block) (b : BlockId) :
    (frame.endBlock terminal next).code b = frame.code b := by
  change (if b = frame.function.entry then frame.function.header else []) ++
    (if b = next then [] else (((frame.function.blocks.insert frame.block
      ⟨frame.filled.reverse, some terminal⟩).get? b).map (·.instructions)).getD []) = _
  rw [Frame.code]
  congr 1
  by_cases hb : b = next
  · subst hb
    rw [if_pos rfl, if_neg hne, Table.get?_of_not_contains hnew]
    rfl
  · rw [if_neg hb, Table.get?_insert]
    by_cases hblock : b = frame.block
    · simp [hblock]
    · simp [hblock]

theorem Open.endBlock {reserved reserved' heads heads' : List BlockId} {loops : List LoopFrame}
    {terminal : Terminal} {next : BlockId} (h : Open env home frame ⟨reserved, heads, [], none⟩)
    (hheader : frame.inHeader = false) (hperm : reserved.Perm (next :: reserved'))
    (htargets : ∀ t ∈ terminal.successors, t ∈ reserved ∨ t ∈ heads)
    (hexits : ∀ b ∈ loops.map (·.exit), b ∈ reserved') (hexits' : (loops.map (·.exit)).Nodup)
    (hheads : ∀ b ∈ heads', b ∈ heads ∨ b = frame.block ∧ b ≠ frame.function.entry) :
    Open env home { frame.endBlock terminal next with loops } ⟨reserved', heads', [], none⟩ := by
  obtain ⟨hnew, hne, hhome⟩ := h.reserved next (hperm.mem_iff.2 List.mem_cons_self)
  obtain ⟨hfresh, hnodup⟩ := List.nodup_cons.1 (hperm.nodup_iff.1 h.reserved_nodup)
  have hcontains (b : BlockId) : (frame.close terminal).blocks.contains b =
      (b == frame.block || frame.function.blocks.contains b) := Table.contains_insert ..
  have htells := h.tells.congr (frame.code_endBlock terminal hnew hne)
  refine ⟨h.id_lt, ⟨?_, ?_⟩, ?_, hhome, .inr ?_, ?_, hnodup, hexits, hexits', ?_, ?_, htells, ?_, ?_,
    h.unjoined⟩
  · intro b hb
    change (frame.close terminal).blocks.contains b = true at hb
    rw [hcontains, Bool.or_eq_true, beq_iff_eq] at hb
    rcases hb with rfl | hb
    · exact h.block_home
    · exact h.charted.own b hb
  · intro b block hb t ht
    change (frame.function.blocks.insert frame.block ⟨frame.filled.reverse, some terminal⟩).get? b = _
      at hb
    rw [Table.get?_insert] at hb
    split at hb
    · rename_i hblock
      cases hb
      rw [hblock]
      rcases htargets t ht with ht | ht
      · obtain ⟨-, htne, hthome⟩ := h.reserved t ht
        exact ⟨htne, h.ne_entry ht, hthome⟩
      · obtain ⟨htcontains, htentry⟩ := h.heads t ht
        refine ⟨?_, htentry, h.charted.own t htcontains⟩
        rintro rfl
        rw [h.block_new] at htcontains
        cases htcontains
    · exact h.charted.edges b block hb t ht
  · change (frame.close terminal).blocks.contains next = false
    rw [hcontains, hnew, Bool.or_false]
    simpa using hne
  · change (frame.close terminal).blocks.contains frame.function.entry = true
    rw [hcontains, Bool.or_eq_true, beq_iff_eq]
    exact h.entry
  · intro b hb
    obtain ⟨hbnew, hbne, hbhome⟩ := h.reserved b (hperm.mem_iff.2 (List.mem_cons_of_mem _ hb))
    refine ⟨?_, ?_, hbhome⟩
    · change (frame.close terminal).blocks.contains b = false
      rw [hcontains, hbnew, Bool.or_false]
      simpa using hbne
    · rintro rfl
      exact hfresh hb
  · intro b hb
    change (frame.close terminal).blocks.contains b = true ∧ _
    rw [hcontains, Bool.or_eq_true, beq_iff_eq]
    rcases hheads b hb with hb | ⟨hb, hentry⟩
    · obtain ⟨hbcontains, hbentry⟩ := h.heads b hb
      exact ⟨.inr hbcontains, hbentry⟩
    · exact ⟨.inl hb, hentry⟩
  · intro hin
    change frame.inHeader = true at hin
    rw [hheader] at hin
    cases hin
  · intro e he
    cases he
  · intro e he
    cases he

/-- A step that changes nothing but the function being filled. -/
theorem Sound.reframe {s : State} {saved : List (Frame × Plan)} (h : Sound ⟨s, plan, saved, home⟩)
    (hid : frame'.function.id = s.frame.function.id) (hcurrent : Open s.env home frame' plan') :
    Sound ⟨{ s with frame := frame' }, plan', saved, home⟩ :=
  h.advance (.refl _ _) (fun _ _ hb => hb) h.records h.handed h.scopes hid rfl hcurrent

/-! ## Functions -/

/-- A function begins with its entry. -/
theorem open_start (name : Option String) (parent : Option FuncId) (kind : FunctionKind)
    (origin : Option Nat) {entry : BlockId} (hid : id.index < env.nextFunc.index)
    (hentry : home.get? entry = some id) :
    Open env home (Frame.start (Function.start id name parent kind origin entry)) {} := by
  have hcode (b : BlockId) :
      (Frame.start (Function.start id name parent kind origin entry)).code b = [] := by
    rw [Frame.code]
    split <;> split <;> rfl
  have htells : Tells env id
      (Frame.start (Function.start id name parent kind origin entry)).code none := by
    refine ⟨fun b i hi => ?_, fun d _ b i hi => ?_, fun d _ b _ p hp => ?_⟩
    · rw [hcode] at hi
      cases hi
    · rw [hcode] at hi
      cases hi
    · rw [hcode] at hp
      cases hp
  exact
    { id_lt := hid
      charted := ⟨fun b hb => (by cases hb), fun b block hb => (by cases hb)⟩
      block_new := rfl
      block_home := hentry
      entry := .inl rfl
      reserved := fun b hb => by cases hb
      reserved_nodup := .nil
      exits := fun b hb => by cases hb
      exits_nodup := .nil
      heads := fun b hb => by cases hb
      header := fun _ => ⟨rfl, rfl⟩
      tells := htells
      hoisted := fun e he => by cases he
      due := fun e he => by cases he
      unjoined := rfl }

theorem Sound.enter {s : State} {reserved heads : List BlockId} {hoisted : List (DeclId × Place)}
    {saved : List (Frame × Plan)} (h : Sound ⟨s, ⟨reserved, heads, hoisted, none⟩, saved, home⟩)
    (name : Option String) (kind : FunctionKind) (origin : Option Nat)
    (outer : List (FuncId × Versions)) :
    Sound ⟨s.enter name kind origin outer, {}, (s.frame, ⟨reserved, heads, hoisted, none⟩) :: saved,
      home.insert s.env.nextBlock s.env.nextFunc⟩ := by
  have hgrows : s.env.Grows s.env.nextFunc s.env.newFunc.2.newBlock.2 :=
    .of_same rfl rfl (fun _ hd => hd) (Nat.le_succ _)
  have hhome := get?_insert_new h.not_handed s.env.nextFunc
  have hnew (id : FuncId) (hid : id.index < s.env.nextFunc.index) : id ≠ s.env.nextFunc := by
    rintro rfl
    exact Nat.lt_irrefl _ hid
  have hids : ∀ id ∈ s.frame.function.id :: saved.map (·.1.function.id), id ≠ s.env.nextFunc := by
    intro id hid
    rcases List.mem_cons.1 hid with rfl | hid
    · exact hnew _ h.current.id_lt
    · obtain ⟨o, ho, rfl⟩ := List.mem_map.1 hid
      exact hnew _ (h.saved o ho).id_lt
  refine ⟨h.records.grow hgrows rfl (Nat.le_refl _) hhome, fun b id hb => ?_, h.scopes, ?_,
    fun o ho => ?_, fun id f hf => ?_, ?_, fun id hid => ?_⟩
  · change b.index < s.env.nextBlock.index + 1
    change (home.insert s.env.nextBlock s.env.nextFunc).get? b = _ at hb
    rw [Table.get?_insert] at hb
    split at hb
    · rename_i heq
      rw [heq]
      exact Nat.lt_succ_self _
    · exact Nat.lt_succ_of_lt (h.handed b id hb)
  · refine open_start name _ kind origin (Nat.lt_succ_self _) ?_
    rw [Table.get?_insert, if_pos rfl]
  · rcases List.mem_cons.1 ho with rfl | ho
    · exact h.current.grow hgrows hhome fun d hd => hgrows.versions_of_ne (hnew _ h.current.id_lt) hd
    · exact (h.saved o ho).grow hgrows hhome fun d hd =>
        hgrows.versions_of_ne (hnew _ (h.saved o ho).id_lt) hd
  · exact (h.closed id f hf).grow hgrows hhome (hnew _ (h.closed id f hf).id_lt)
  · exact List.nodup_cons.2 ⟨fun hmem => hids _ hmem rfl, h.ids⟩
  · rcases List.mem_cons.1 hid with rfl | hid
    · rw [Bool.eq_false_iff]
      intro hcontains
      obtain ⟨f, hf⟩ := Table.contains_iff.1 hcontains
      exact Nat.lt_irrefl _ (h.closed _ f hf).id_lt
    · exact h.apart id hid

/-- The last block of a function leads nowhere. -/
theorem Open.close (h : Open env home frame plan) (hdue : plan.due = none) :
    Closed env home frame.function.id (frame.close (.ret none)).recomputeFlow := by
  have hblocks : (frame.close (.ret none)).recomputeFlow.blocks =
      frame.function.blocks.insert frame.block ⟨frame.filled.reverse, some (.ret none)⟩ := rfl
  refine ⟨rfl, h.id_lt, rfl, ?_, ⟨fun b hb => ?_, fun b block hb t ht => ?_⟩, ?_, h.unjoined⟩
  · change (frame.close (.ret none)).recomputeFlow.blocks.contains frame.function.entry = true
    rw [hblocks, Table.contains_insert, Bool.or_eq_true, decide_eq_true_eq]
    exact h.entry
  · rw [hblocks, Table.contains_insert, Bool.or_eq_true, decide_eq_true_eq] at hb
    rcases hb with rfl | hb
    · exact h.block_home
    · exact h.charted.own b hb
  · rw [hblocks, Table.get?_insert] at hb
    split at hb
    · cases hb
      cases ht
    · exact h.charted.edges b block hb t ht
  · have htells := h.tells
    rw [hdue] at htells
    refine htells.congr fun b => ?_
    rw [Function.code, hblocks, Frame.code, Table.get?_insert]
    congr 1
    split <;> rfl

theorem Sound.leave {s : State} {around : Frame} {saved : List (Frame × Plan)}
    (h : Sound ⟨s, {}, (around, plan) :: saved, home⟩) (outer : List (FuncId × Versions)) :
    Sound ⟨s.leave around outer, plan, saved, home⟩ := by
  obtain ⟨hfresh, hids⟩ := List.nodup_cons.1 h.ids
  refine ⟨h.records, h.handed, h.scopes, h.saved _ List.mem_cons_self,
    fun o ho => h.saved o (List.mem_cons_of_mem _ ho), fun id f hf => ?_, hids, fun id hid => ?_⟩
  · change (s.functions.insert s.frame.function.id _).get? id = _ at hf
    rw [Table.get?_insert] at hf
    split at hf
    · rename_i hid
      cases hf
      rw [hid]
      exact h.current.close rfl
    · exact h.closed id f hf
  · change (s.functions.insert s.frame.function.id _).contains id = false
    rw [Table.contains_insert, h.apart id (List.mem_cons_of_mem _ hid), Bool.or_false,
      decide_eq_false_iff_not]
    rintro rfl
    exact hfresh hid

/-! ## All steps -/

/-- Steps lead from sound configurations to sound ones. -/
theorem Sound.step {c c' : Config} (h : Sound c) (hstep : Step c c') : Sound c' := by
  cases hstep with
  | quiet hquiet => exact h.quiet hquiet
  | newBlock => exact h.newBlock
  | declare name kind => exact h.declare name kind
  | version d hd hhoisted => exact h.version hd hhoisted
  | claim honly _ => exact (h.claim honly).unclaim _ _
  | offer honly => exact (h.drop honly).unclaim _ _
  | drop honly => exact h.drop honly
  | hoist honly => exact h.hoist honly
  | unhoist => exact h.unhoist
  | unkeep => exact h.unkeep
  | bind op origin hop => exact h.bind op origin hop
  | store op origin hop => exact h.store op origin hop
  | emit op origin hop => exact h.emit op origin hop
  | endBlock hheader hperm hnext htargets =>
    refine h.reframe rfl (h.current.endBlock hheader hperm
      (fun t ht => .inl (htargets t (Terminal.mem_mentions ht))) (fun b hb => ?_)
      h.current.exits_nodup fun b hb => .inl hb)
    rcases List.mem_cons.1 (hperm.mem_iff.1 (h.current.exits b hb)) with rfl | hb'
    · exact absurd hb hnext
    · exact hb'
  | openLoop hheader hentry hperm hbody hexit hexit' =>
    refine h.reframe rfl (h.current.endBlock hheader hperm (fun t ht => ?_) (fun b hb => ?_) ?_
      fun b hb => ?_)
    · simp only [Terminal.successors, List.mem_cons, List.not_mem_nil, or_false] at ht
      rcases ht with rfl | rfl
      · exact .inl (hperm.mem_iff.2 List.mem_cons_self)
      · exact .inl (hperm.mem_iff.2 (List.mem_cons_of_mem _ hexit))
    · rcases List.mem_cons.1 hb with rfl | hb
      · exact hexit
      · rcases List.mem_cons.1 (hperm.mem_iff.1 (h.current.exits b hb)) with rfl | hb'
        · exact absurd hb hbody
        · exact hb'
    · exact List.nodup_cons.2 ⟨hexit', h.current.exits_nodup⟩
    · rcases List.mem_cons.1 hb with rfl | hb
      · exact .inr ⟨rfl, fun heq => Nat.lt_irrefl _ (heq ▸ hentry)⟩
      · exact .inl hb
  | closeLoop hheader hloops hperm =>
    have hnodup := h.current.exits_nodup
    have hexits := h.current.exits
    simp only [hloops, List.map_cons] at hnodup hexits
    obtain ⟨hfresh, hnodup⟩ := List.nodup_cons.1 hnodup
    refine h.reframe rfl (h.current.endBlock hheader hperm (fun t ht => ?_) (fun b hb => ?_) hnodup
      fun b hb => .inl (List.mem_cons_of_mem _ hb))
    · rw [List.mem_singleton.1 ht]
      exact .inr List.mem_cons_self
    · rcases List.mem_cons.1 (hperm.mem_iff.1 (hexits b (List.mem_cons_of_mem _ hb))) with rfl | hb'
      · exact absurd hb hfresh
      · exact hb'
  | openHeader hblock hfilled =>
    exact h.reframe rfl (h.current.congr ⟨_, _, rfl⟩ rfl rfl (fun _ => ⟨hfilled, hblock⟩) rfl)
  | closeHeader =>
    exact h.reframe rfl (h.current.congr ⟨_, _, rfl⟩ rfl rfl (fun hin => by cases hin) rfl)
  | enter name kind origin outer => exact h.enter name kind origin outer
  | leave outer => exact h.leave outer

theorem Sound.steps {c c' : Config} (h : Sound c) (hsteps : Steps c c') : Sound c' := by
  induction hsteps with
  | refl => exact h
  | tail _ hstep ih => exact ih.step hstep

/-! ## The block being filled -/

/-- Where the function still fills the block, it has the given blocks and no others. -/
structure Filling (id : FuncId) (b : BlockId) (blocks : Table BlockId Block) (c : Config) : Prop where
  id_lt : id.index < c.state.env.nextFunc.index
  frames : ∀ frame ∈ c.state.frame :: c.saved.map (·.1), frame.function.id = id →
    frame.function.blocks.contains b = true ∨ frame.block = b ∧ frame.function.blocks = blocks

section

variable {b : BlockId} {blocks : Table BlockId Block} {s s' : State} {saved : List (Frame × Plan)}

theorem Filling.advance (h : Filling id b blocks ⟨s, plan, saved, home⟩)
    (hlt : s.env.nextFunc.index ≤ s'.env.nextFunc.index)
    (hid : s'.frame.function.id = s.frame.function.id)
    (hframe : s.frame.function.blocks.contains b = true ∨
      s.frame.block = b ∧ s.frame.function.blocks = blocks →
      s'.frame.function.blocks.contains b = true ∨
        s'.frame.block = b ∧ s'.frame.function.blocks = blocks) :
    Filling id b blocks ⟨s', plan', saved, home'⟩ := by
  refine ⟨Nat.lt_of_lt_of_le h.id_lt hlt, fun frame hmem heq => ?_⟩
  rcases List.mem_cons.1 hmem with rfl | hmem
  · exact hframe (h.frames _ List.mem_cons_self (hid ▸ heq))
  · exact h.frames frame (List.mem_cons_of_mem _ hmem) heq

theorem Filling.put (h : Filling id b blocks ⟨s, plan, saved, home⟩) (place : Place) (op : Op)
    (origin : Option Nat) : Filling id b blocks ⟨s.put place op origin, plan', saved, home⟩ := by
  obtain ⟨header, filled, heq⟩ := s.frame.put_eq (s.env.newInstrAt place origin op).1
  have hput : s.put place op origin = { s with
      env := (s.env.newInstrAt place origin op).2
      frame := { s.frame with function := { s.frame.function with header }, filled } } := by
    rw [State.put, heq]
  rw [hput]
  exact h.advance (Nat.le_refl _) rfl fun hframe => hframe

theorem Filling.emit (h : Filling id b blocks ⟨s, plan, saved, home⟩) (op : Op)
    (origin : Option Nat) : Filling id b blocks ⟨s.emit op origin, plan', saved, home⟩ :=
  have htemporary : Filling id b blocks
      ⟨{ s with env := (s.env.newTemporary s.frame.function.id).2 }, plan, saved, home⟩ :=
    h.advance (Nat.le_refl _) rfl fun hframe => hframe
  htemporary.put _ op origin

theorem Filling.withVersion (h : Filling id b blocks ⟨s, plan, saved, home⟩) (d : DeclId) :
    Filling id b blocks ⟨s.withVersion d, plan', saved, home⟩ := by
  obtain ⟨_, _, heq, -⟩ := s.withVersion_eq d
  rw [heq]
  exact h.advance (Nat.le_refl _) rfl fun hframe => hframe

theorem Filling.endBlock (h : Filling id b blocks ⟨s, plan, saved, home⟩) (terminal : Terminal)
    (next : BlockId) (loops : List LoopFrame) :
    Filling id b blocks ⟨{ s with frame := { s.frame.endBlock terminal next with loops } }, plan',
      saved, home⟩ := by
  refine h.advance (Nat.le_refl _) rfl fun hframe => .inl ?_
  change (s.frame.function.blocks.insert s.frame.block _).contains b = true
  rw [Table.contains_insert, Bool.or_eq_true, decide_eq_true_eq]
  rcases hframe with hold | ⟨hblock, -⟩
  · exact .inr hold
  · exact .inl hblock.symm

end

theorem Filling.step {b : BlockId} {blocks : Table BlockId Block} {c c' : Config}
    (h : Filling id b blocks c) (hstep : Step c c') : Filling id b blocks c' := by
  cases hstep with
  | quiet hquiet =>
    obtain ⟨_, _, henv, -⟩ := hquiet.env
    obtain ⟨_, hfunction⟩ := hquiet.function
    refine h.advance (by rw [henv]) (by rw [hfunction]) ?_
    rw [hfunction, hquiet.block]
    exact fun hframe => hframe
  | version d => exact h.withVersion d
  | newBlock | declare _ _ | claim _ _ | offer _ | drop _ | hoist _ | unhoist | unkeep | openHeader _ _
  | closeHeader => exact h.advance (Nat.le_refl _) rfl fun hframe => hframe
  | bind op origin _ => exact h.put _ op origin
  | store op origin _ | emit op origin _ => exact h.emit op origin
  | endBlock | openLoop | closeLoop => exact h.endBlock _ _ _
  | enter name kind origin outer =>
    refine ⟨Nat.lt_succ_of_lt h.id_lt, fun frame hmem heq => ?_⟩
    rcases List.mem_cons.1 hmem with rfl | hmem
    · exact absurd h.id_lt (heq ▸ Nat.lt_irrefl _)
    · exact h.frames frame hmem heq
  | leave outer => exact ⟨h.id_lt, fun frame hmem => h.frames frame (List.mem_cons_of_mem _ hmem)⟩

theorem Filling.steps {b : BlockId} {blocks : Table BlockId Block} {c c' : Config}
    (h : Filling id b blocks c) (hsteps : Steps c c') : Filling id b blocks c' := by
  induction hsteps with
  | refl => exact h
  | tail _ hstep ih => exact ih.step hstep

/-- As long as a function fills the same block, none of its blocks ends. -/
theorem Sound.blocks_eq {c c' : Config} (h : Sound c) (hsteps : Steps c c')
    (hid : c'.state.frame.function.id = c.state.frame.function.id)
    (hblock : c'.state.frame.block = c.state.frame.block) :
    c'.state.frame.function.blocks = c.state.frame.function.blocks := by
  have hstart : Filling c.state.frame.function.id c.state.frame.block
      c.state.frame.function.blocks c := by
    refine ⟨h.current.id_lt, fun frame hmem heq => ?_⟩
    rcases List.mem_cons.1 hmem with rfl | hmem
    · exact .inr ⟨rfl, rfl⟩
    · obtain ⟨o, ho, rfl⟩ := List.mem_map.1 hmem
      exact absurd (List.mem_map.2 ⟨o, ho, heq⟩) (List.nodup_cons.1 h.ids).1
  rcases (hstart.steps hsteps).frames _ List.mem_cons_self hid with hended | ⟨-, hblocks⟩
  · rw [← hblock, (h.steps hsteps).current.block_new] at hended
    cases hended
  · exact hblocks

end Whittle.Lowering
