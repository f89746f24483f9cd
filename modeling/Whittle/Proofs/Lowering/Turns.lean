import Mathlib.Tactic.Common
import Whittle.Proofs.Ir.Turns
import Whittle.Proofs.Lowering.Sound

/-!
# Variables of the function being filled

As long as the blocks of a function end in plain jumps, control has come straight from the entry to
where the next instruction goes, and the current version of each variable is written: but those of
declarations that may not be used yet, and those with which hoisted ones start.  Once a block has ended
otherwise, the way from the entry to it is settled, whatever comes behind (`Frame.Settles`).
-/

namespace Whittle.Lowering

open Ir

/-- Every block ends in a plain jump. -/
def IsPlain (blocks : Table BlockId Block) : Prop :=
  ∀ id b, blocks.get? id = some b → ∃ target, b.terminal = some (.jump target)

/-- The cells that the code so far writes. -/
def Frame.written (frame : Frame) : List CellId :=
  (frame.function.instructions ++ frame.filled).flatMap (·.writes)

/-- The next instruction may read a place. -/
def Frame.Initialized (frame : Frame) (env : Environment) (p : Place) : Prop :=
  IsPlain frame.function.blocks → Ir.Initialized env frame.function.id frame.written p

/-- The current version of a variable, unless it is due to be written. -/
structure Frame.Holds (frame : Frame) (env : Environment) (due : Option DeclId) (d : DeclId)
    (p : Place) : Prop where
  owner : env.ownerOf d = some frame.function.id
  recorded : ∃ r ∈ env.versionsOf d, r.place = p
  ready : due ≠ some d → p.cell.id ∈ frame.written ∨ frame.uninitialized.contains d = true ∨
    p.StartsHoisted env

/-- Control has come straight from the entry. -/
structure Frame.OnTheWay (frame : Frame) (env : Environment) (due : Option DeclId) : Prop where
  code : ∃ is, Route frame.function.entry frame.function.blocks frame.block is ∧
    (∀ id b, frame.function.blocks.get? id = some b → b.instructions ⊆ is) ∧
    InTurn env frame.function.id (frame.function.header.flatMap (·.writes)) (is ++ frame.filled.reverse)
  closed : ∀ id b, frame.function.blocks.get? id = some b → id.index < frame.block.index
  loops : frame.loops = []
  versions : ∀ d p, frame.versions.get? d = some p → frame.Holds env due d p

/-- Where control goes straight, variables are written before they are read.  Routes only lead to blocks
that were handed out, and none leads to the block being filled once one has come to its end. -/
structure Frame.Settles (frame : Frame) (env : Environment) (due : Option DeclId) : Prop where
  handed : ∀ id is, Route frame.function.entry frame.function.blocks id is →
    id.index < env.nextBlock.index
  straight : IsPlain frame.function.blocks → frame.OnTheWay env due
  left : ¬ IsPlain frame.function.blocks → frame.function.RunsInTurn env ∧
    ∀ id is, Route frame.function.entry frame.function.blocks id is → id.index < frame.block.index

/-- Frames that hold the same code of the same function. -/
structure Frame.SameCode (frame frame' : Frame) : Prop where
  id : frame'.function.id = frame.function.id
  kind : frame'.function.kind = frame.function.kind
  entry : frame'.function.entry = frame.function.entry
  header : frame'.function.header = frame.function.header
  blocks : frame'.function.blocks = frame.function.blocks
  block : frame'.block = frame.block
  filled : frame'.filled = frame.filled

/-- A function that goes on being filled.  Once control has left the straight way, it does not come back
to it. -/
structure Frame.Onward (frame frame' : Frame) : Prop where
  kind : frame'.function.kind = frame.function.kind
  entry : frame'.function.entry = frame.function.entry
  left : frame.function.kind = .declaration → ¬ IsPlain frame.function.blocks →
    ¬ IsPlain frame'.function.blocks ∧
      ∀ id is, Route frame'.function.entry frame'.function.blocks id is →
        Route frame.function.entry frame.function.blocks id is

/-- The same block goes on being filled. -/
structure Frame.Stays (frame frame' : Frame) : Prop where
  block : frame'.block = frame.block
  blocks : frame'.function.blocks = frame.function.blocks
  written : frame.written ⊆ frame'.written

/-- A block that was handed out after every block on the way. -/
structure Frame.Coming (frame : Frame) (env : Environment) (b : BlockId) : Prop where
  handed : b.index < env.nextBlock.index
  later : ∀ id is, Route frame.function.entry frame.function.blocks id is → id.index < b.index

variable {env env' : Environment} {cells cells' : List Cell} {frame frame' : Frame} {d : DeclId}
  {due : Option DeclId} {p : Place} {i : Instr} {b next : BlockId} {terminal : Terminal}

/-! ## What is written -/

theorem Frame.mem_written {c : CellId} : c ∈ frame.written ↔
    c ∈ frame.function.header.flatMap (·.writes) ∨
      (∃ id b, frame.function.blocks.get? id = some b ∧ c ∈ b.instructions.flatMap (·.writes)) ∨
      c ∈ frame.filled.flatMap (·.writes) := by
  simp only [written, Function.instructions, List.flatMap_append, List.mem_append, or_assoc,
    List.flatMap_assoc, List.mem_flatMap (f := fun b : Block => _), Table.mem_values]
  constructor
  · rintro (h | ⟨b, ⟨id, hb⟩, h⟩ | h)
    · exact .inl h
    · exact .inr (.inl ⟨id, b, hb, h⟩)
    · exact .inr (.inr h)
  · rintro (h | ⟨id, b, hb, h⟩ | h)
    · exact .inl h
    · exact .inr (.inl ⟨b, ⟨id, hb⟩, h⟩)
    · exact .inr (.inr h)

theorem Frame.mem_written_put {c : CellId} :
    c ∈ (frame.put i).written ↔ c ∈ frame.written ∨ c ∈ i.writes := by
  rw [Frame.put, mem_written, mem_written]
  split
  · simp only [List.flatMap_append, List.mem_append, List.flatMap_cons, List.flatMap_nil, List.append_nil,
      or_assoc, or_comm, or_left_comm]
  · simp only [List.flatMap_cons, List.mem_append, or_assoc, or_comm, or_left_comm]

theorem Frame.mem_written_endBlock {c : CellId} (hopen : frame.function.blocks.get? frame.block = none) :
    c ∈ (frame.endBlock terminal next).written ↔ c ∈ frame.written := by
  rw [mem_written, mem_written, Frame.endBlock, Frame.close, Function.setBlock]
  simp only [List.flatMap_nil, List.not_mem_nil, or_false]
  refine or_congr_right ⟨?_, ?_⟩
  · rintro ⟨id, b, hb, hc⟩
    rw [Table.get?_insert] at hb
    split at hb
    · obtain rfl := Option.some.inj hb
      exact .inr (by simpa using hc)
    · exact .inl ⟨id, b, hb, hc⟩
  · rintro (⟨id, b, hb, hc⟩ | hc)
    · refine ⟨id, b, ?_, hc⟩
      rw [Table.get?_insert, if_neg]
      · exact hb
      · rintro rfl
        rw [hopen] at hb
        cases hb
    · refine ⟨frame.block, ⟨frame.filled.reverse, some terminal⟩, ?_, by simpa using hc⟩
      rw [Table.get?_insert, if_pos rfl]

/-- On the way, all that is written stands before the next instruction. -/
theorem Frame.written_subset {is : List Instr}
    (his : ∀ id b, frame.function.blocks.get? id = some b → b.instructions ⊆ is) :
    frame.written ⊆ frame.function.header.flatMap (·.writes) ++
      (is ++ frame.filled.reverse).flatMap (·.writes) := by
  intro c hc
  simp only [List.flatMap_append, List.mem_append]
  rcases Frame.mem_written.1 hc with hc | ⟨id, b, hb, hc⟩ | hc
  · exact .inl hc
  · obtain ⟨i, hi, hc⟩ := List.mem_flatMap.1 hc
    exact .inr (.inl (List.mem_flatMap.2 ⟨i, his id b hb hi, hc⟩))
  · exact .inr (.inr (by simpa using hc))

/-! ## What the steps keep -/

namespace Frame

theorem Holds.mono (h : frame.Holds env due d p) (hid : frame'.function.id = frame.function.id)
    (hwritten : frame.written ⊆ frame'.written)
    (huninitialized : frame.uninitialized.contains d = true → frame'.uninitialized.contains d = true) :
    frame'.Holds env due d p :=
  ⟨hid ▸ h.owner, h.recorded, fun hdue => (h.ready hdue).imp (fun hp => hwritten hp)
    (.imp_left huninitialized)⟩

theorem Settles.start {f : Function} (hnone : ∀ id b, f.blocks.get? id ≠ some b)
    (hentry : f.entry.index < env.nextBlock.index) : (Frame.start f).Settles env due where
  handed id is hroute := by
    cases hroute with
    | start => exact hentry
    | jump _ hb _ => exact absurd hb (hnone _ _)
  straight _ := by
    refine ⟨⟨[], .start, fun id b hb => ?_, trivial⟩, fun id b hb => ?_, rfl, by rintro d p ⟨⟩⟩
    · exact absurd hb (hnone id b)
    · exact absurd hb (hnone id b)
  left hplain := absurd (fun id b hb => absurd hb (hnone id b)) hplain

/-- An instruction is added.  The version that was due is written now. -/
theorem Settles.put (h : frame.Settles env due)
    (hreads : i.op.isKept = false → ∀ p ∈ i.reads, frame.Initialized env p)
    (hdue : IsPlain frame.function.blocks →
      ∀ d ∈ due, ∀ p, frame.versions.get? d = some p → p.cell.id ∈ i.writes) :
    (frame.put i).Settles env none := by
  have hversions (hplain : IsPlain frame.function.blocks) (d : DeclId) (p : Place)
      (hp : frame.versions.get? d = some p) :
      p.cell.id ∈ (frame.put i).written ∨ frame.uninitialized.contains d = true ∨ p.StartsHoisted env := by
    by_cases hd : due = some d
    · exact .inl (mem_written_put.2 (.inr (hdue hplain d hd p hp)))
    · exact (((h.straight hplain).versions d p hp).ready hd).imp_left fun hp => mem_written_put.2 (.inl hp)
  rw [Frame.put] at hversions ⊢
  split at hversions
  · next hheader =>
    rw [if_pos hheader]
    refine ⟨h.handed, fun hplain => ?_, fun hplain => ?_⟩
    · obtain ⟨⟨is, hroute, his, hturn⟩, hclosed, hloops, hold⟩ := h.straight hplain
      refine ⟨⟨is, hroute, his, hturn.mono ?_⟩, hclosed, hloops, fun d p hp => ⟨(hold d p hp).owner,
        (hold d p hp).recorded, fun _ => hversions hplain d p hp⟩⟩
      rw [List.flatMap_append]
      exact List.subset_append_left _ _
    · obtain ⟨⟨id, is, b, t, hroute, hb, ht, hjump, hturn, hlast⟩, hlater⟩ := h.left hplain
      have hmore : frame.function.header.flatMap (·.writes) ⊆
          (frame.function.header ++ [i]).flatMap (·.writes) := by
        rw [List.flatMap_append]
        exact List.subset_append_left _ _
      refine ⟨⟨id, is, b, t, hroute, hb, ht, hjump, hturn.mono hmore, fun p hp => ?_⟩, hlater⟩
      exact (hlast p hp).mono (List.append_subset.2 ⟨fun c hc => List.mem_append_left _ (hmore hc),
        List.subset_append_right _ _⟩)
  · next hheader =>
    rw [if_neg hheader]
    refine ⟨h.handed, fun hplain => ?_, h.left⟩
    obtain ⟨⟨is, hroute, his, hturn⟩, hclosed, hloops, hold⟩ := h.straight hplain
    refine ⟨⟨is, hroute, his, ?_⟩, hclosed, hloops, fun d p hp => ⟨(hold d p hp).owner,
      (hold d p hp).recorded, fun _ => hversions hplain d p hp⟩⟩
    change InTurn _ _ _ (is ++ (i :: frame.filled).reverse)
    rw [List.reverse_cons, ← List.append_assoc]
    exact hturn.concat fun hop p hp => (hreads hop p hp hplain).mono (written_subset his)

/-- A block that ends in a way of its own, when control came straight to it. -/
theorem OnTheWay.runsInTurn (h : frame.OnTheWay env due) (hplain : IsPlain frame.function.blocks)
    (hjump : ∀ target, terminal ≠ .jump target)
    (hreads : ∀ p ∈ terminal.reads, frame.Initialized env p) :
    (frame.close terminal).RunsInTurn env := by
  obtain ⟨⟨is, hroute, his, hturn⟩, hclosed, -, -⟩ := h
  refine ⟨frame.block, is, ⟨frame.filled.reverse, some terminal⟩, terminal, hroute.insert ?_, ?_, rfl,
    hjump, hturn, fun p hp => (hreads p hp hplain).mono (written_subset his)⟩
  · cases hget : frame.function.blocks.get? frame.block with
    | none => rfl
    | some b => exact absurd (hclosed _ _ hget) (Nat.lt_irrefl _)
  · rw [close, Function.setBlock, Table.get?_insert, if_pos rfl]

theorem OnTheWay.opened (h : frame.OnTheWay env due) :
    frame.function.blocks.get? frame.block = none := by
  cases hget : frame.function.blocks.get? frame.block with
  | none => rfl
  | some b => exact absurd (h.closed _ _ hget) (Nat.lt_irrefl _)

/-- What lies behind the way from the entry does not change it. -/
theorem Settles.route_endBlock (h : frame.Settles env due)
    (hjump : IsPlain frame.function.blocks → ∀ target, terminal ≠ .jump target) {id : BlockId}
    {is : List Instr} : Route (frame.close terminal).entry (frame.close terminal).blocks id is ↔
      Route frame.function.entry frame.function.blocks id is := by
  refine Route.insert_iff (fun is b hroute hb => ?_) fun is target hroute hterminal => ?_
  · by_cases hplain : IsPlain frame.function.blocks
    · rw [(h.straight hplain).opened] at hb
      cases hb
    · exact Nat.lt_irrefl _ ((h.left hplain).2 _ _ hroute)
  · by_cases hplain : IsPlain frame.function.blocks
    · exact hjump hplain target (Option.some.inj hterminal)
    · exact Nat.lt_irrefl _ ((h.left hplain).2 _ _ hroute)

/-- What is settled stays settled. -/
theorem Settles.left_endBlock (h : frame.Settles env due) (hplain : ¬ IsPlain frame.function.blocks) :
    ¬ IsPlain (frame.close terminal).blocks ∧ (frame.close terminal).RunsInTurn env := by
  obtain ⟨⟨id, is, b, t, hroute, hb, ht, hjump, hturn, hlast⟩, hlater⟩ := h.left hplain
  have hkept : (frame.close terminal).blocks.get? id = some b := by
    rw [close, Function.setBlock, Table.get?_insert, if_neg]
    · exact hb
    · rintro rfl
      exact Nat.lt_irrefl _ (hlater _ _ hroute)
  refine ⟨fun hplain' => ?_, id, is, b, t, ?_, hkept, ht, hjump, hturn, hlast⟩
  · obtain ⟨target, htarget⟩ := hplain' id b hkept
    exact hjump target (Option.some.inj (ht.symm.trans htarget))
  · exact (h.route_endBlock fun hplain' => absurd hplain' hplain).2 hroute

theorem get?_close {id : BlockId} {b : Block} (hb : (frame.close terminal).blocks.get? id = some b) :
    (id = frame.block ∧ b = ⟨frame.filled.reverse, some terminal⟩) ∨
      frame.function.blocks.get? id = some b := by
  rw [close, Function.setBlock, Table.get?_insert] at hb
  split at hb
  · next heq => exact .inl ⟨heq, (Option.some.inj hb).symm⟩
  · exact .inr hb

theorem get?_close_self :
    (frame.close terminal).blocks.get? frame.block = some ⟨frame.filled.reverse, some terminal⟩ := by
  rw [close, Function.setBlock, Table.get?_insert, if_pos rfl]

/-- On the way, blocks end in the order in which they are handed out. -/
theorem OnTheWay.closed_endBlock (h : frame.OnTheWay env due) (hnext : frame.block.index < next.index) :
    ∀ id b, (frame.close terminal).blocks.get? id = some b → id.index < next.index := by
  intro id b hb
  rcases get?_close hb with ⟨rfl, -⟩ | hb
  · exact hnext
  · exact (h.closed id b hb).trans hnext

/-- A jump to the next block leads there and nowhere else. -/
theorem OnTheWay.route_jump (h : frame.OnTheWay env due) (hnext : frame.block.index < next.index)
    {id : BlockId} {is : List Instr}
    (hroute : Route frame.function.entry (frame.close (.jump next)).blocks id is) :
    Route frame.function.entry frame.function.blocks id is ∨ id = next := by
  refine hroute.of_insert rfl ?_
  cases hb : (frame.close (.jump next)).blocks.get? next with
  | none => exact hb
  | some b => exact absurd (h.closed_endBlock hnext _ _ hb) (Nat.lt_irrefl _)

/-- Control goes straight on into the next block. -/
theorem OnTheWay.goesOn (h : frame.OnTheWay env none) (hplain : IsPlain frame.function.blocks)
    (hnext : frame.block.index < next.index) :
    IsPlain (frame.close (.jump next)).blocks ∧ (frame.endBlock (.jump next) next).OnTheWay env none := by
  obtain ⟨is, hroute, his, hturn⟩ := h.code
  refine ⟨fun id b hb => ?_, ⟨is ++ frame.filled.reverse, ?_, fun id b hb => ?_, ?_⟩,
    h.closed_endBlock hnext, h.loops, ?_⟩
  · rcases get?_close hb with ⟨-, rfl⟩ | hb
    · exact ⟨next, rfl⟩
    · exact hplain id b hb
  · exact .jump (hroute.insert h.opened) get?_close_self rfl
  · rcases get?_close hb with ⟨-, rfl⟩ | hb
    · exact List.subset_append_right _ _
    · exact fun i hi => List.mem_append_left _ (his id b hb hi)
  · change InTurn _ _ _ (is ++ frame.filled.reverse ++ [])
    rwa [List.append_nil]
  · exact fun d p hp => (h.versions d p hp).mono rfl
      (fun c hc => (mem_written_endBlock h.opened).2 hc) fun hd => hd

/-- Control goes straight on into the next block. -/
theorem Settles.goesOn (h : frame.Settles env none) (hplain : IsPlain frame.function.blocks)
    (hnext : frame.Coming env next) : (frame.endBlock (.jump next) next).Settles env none := by
  have hway := h.straight hplain
  obtain ⟨is, hroute, -, -⟩ := hway.code
  have hlater : frame.block.index < next.index := hnext.later _ _ hroute
  obtain ⟨hplain', hway'⟩ := hway.goesOn hplain hlater
  refine ⟨fun id is hroute' => ?_, fun _ => hway', fun hnot => absurd hplain' hnot⟩
  rcases hway.route_jump hlater hroute' with hroute' | rfl
  · exact h.handed id is hroute'
  · exact hnext.handed

/-- From where the way from the entry is settled, blocks end in any way. -/
theorem Settles.endBlock_of_runsInTurn (h : frame.Settles env due) (hnext : frame.Coming env next)
    (hjump : IsPlain frame.function.blocks → ∀ target, terminal ≠ .jump target)
    (hleft : ¬ IsPlain (frame.close terminal).blocks)
    (hruns : (frame.close terminal).RunsInTurn env) : (frame.endBlock terminal next).Settles env none :=
  ⟨fun id is hroute => h.handed id is ((h.route_endBlock hjump).1 hroute),
    fun hplain => absurd hplain hleft,
    fun _ => ⟨hruns, fun id is hroute => hnext.later id is ((h.route_endBlock hjump).1 hroute)⟩⟩

/-- A block ends: as long as control goes straight, with a jump to the next one or with no jump. -/
theorem Settles.endBlock (h : frame.Settles env none)
    (hreads : ∀ p ∈ terminal.reads, frame.Initialized env p) (hnext : frame.Coming env next)
    (hjump : IsPlain frame.function.blocks → ∀ target, terminal = .jump target → target = next) :
    (frame.endBlock terminal next).Settles env none := by
  by_cases hplain : IsPlain frame.function.blocks
  · by_cases hterminal : ∃ target, terminal = .jump target
    · obtain ⟨target, rfl⟩ := hterminal
      obtain rfl := hjump hplain target rfl
      exact h.goesOn hplain hnext
    · have hnot (target : BlockId) (heq : terminal = .jump target) : False := hterminal ⟨target, heq⟩
      refine h.endBlock_of_runsInTurn hnext (fun _ => hnot) (fun hplain' => ?_)
        ((h.straight hplain).runsInTurn hplain hnot hreads)
      obtain ⟨target, htarget⟩ := hplain' _ _ get?_close_self
      exact hnot target (Option.some.inj htarget)
  · obtain ⟨hleft, hruns⟩ := h.left_endBlock hplain
    exact h.endBlock_of_runsInTurn hnext (fun hplain' => absurd hplain' hplain) hleft hruns

/-- Blocks that were handed out behind the next one are still to come. -/
theorem Coming.endBlock (hb : frame.Coming env b) (h : frame.Settles env none)
    (hjump : IsPlain frame.function.blocks → ∀ target, terminal = .jump target →
      frame.block.index < target.index ∧ target.index < b.index) :
    (frame.endBlock terminal next).Coming env b := by
  refine ⟨hb.handed, fun id is hroute => ?_⟩
  by_cases hterminal : IsPlain frame.function.blocks ∧ ∃ target, terminal = .jump target
  · obtain ⟨hplain, target, rfl⟩ := hterminal
    obtain ⟨hlater, hbefore⟩ := hjump hplain target rfl
    rcases (h.straight hplain).route_jump hlater hroute with hroute | rfl
    · exact hb.later id is hroute
    · exact hbefore
  · refine hb.later id is ((h.route_endBlock fun hplain target heq => ?_).1 hroute)
    exact hterminal ⟨hplain, target, heq⟩

/-- What is settled does not depend on what comes later. -/
theorem Settles.advance {own : Place → Prop} (h : frame.Settles env due)
    (hadvance : Advance env cells env' cells') (hlogs : env.Logs cells)
    (huses : frame.function.Uses (·.IsOf cells) own)
    (hfilled : ∀ i ∈ frame.filled, ∀ p ∈ i.places, p.IsOf cells)
    (hversions : ∀ d p, frame.versions.get? d = some p → p.IsOf cells) : frame.Settles env' due where
  handed id is hroute := (h.handed id is hroute).trans_le hadvance.nextBlock
  straight hplain := by
    obtain ⟨⟨is, hroute, his, hturn⟩, hclosed, hloops, hold⟩ := h.straight hplain
    refine ⟨⟨is, hroute, his, hturn.advance hadvance hlogs fun i hi => ?_⟩, hclosed, hloops,
      fun d p hp => ?_⟩
    · rcases List.mem_append.1 hi with hi | hi
      · obtain ⟨id, b, hb, hi⟩ := hroute.mem hi
        exact (huses.blocks id b hb).instructions i hi
      · exact hfilled i (List.mem_reverse.1 hi)
    · obtain ⟨howner, ⟨r, hr, hrp⟩, hready⟩ := hold d p hp
      obtain ⟨r', hr', hplace⟩ := hadvance.recorded d r hr
      exact ⟨hadvance.ownerOf howner, ⟨r', hr', hplace.trans hrp⟩, fun hdue => (hready hdue).imp_right
        (.imp_right (·.advance hadvance (hlogs.has (hversions d p hp)).2))⟩
  left hplain := (h.left hplain).imp_left (·.advance hadvance hlogs huses)

theorem SameCode.of_function (hfunction : frame'.function = frame.function)
    (hblock : frame'.block = frame.block) (hfilled : frame'.filled = frame.filled) :
    frame.SameCode frame' :=
  ⟨by rw [hfunction], by rw [hfunction], by rw [hfunction], by rw [hfunction], by rw [hfunction], hblock,
    hfilled⟩

theorem SameCode.written (h : frame.SameCode frame') : frame'.written = frame.written := by
  rw [Frame.written, Frame.written, h.filled, Function.instructions, Function.instructions, h.header,
    h.blocks]

theorem SameCode.runsInTurn (h : frame.SameCode frame') (hruns : frame.function.RunsInTurn env) :
    frame'.function.RunsInTurn env := by
  rw [Function.RunsInTurn, h.id, h.entry, h.header, h.blocks]
  exact hruns

/-- Behind a block that ends in its own way, versions and loops do not matter. -/
theorem Settles.of_left (h : frame.Settles env due) (hplain : ¬ IsPlain frame.function.blocks)
    (hsame : frame.SameCode frame') {due' : Option DeclId} : frame'.Settles env due' := by
  constructor
  · rw [hsame.entry, hsame.blocks]
    exact h.handed
  · rw [hsame.blocks]
    exact fun hplain' => absurd hplain' hplain
  · rw [hsame.entry, hsame.blocks, hsame.block]
    exact fun hplain => (h.left hplain).imp_left hsame.runsInTurn

/-- What guides the lowering otherwise does not matter. -/
theorem Settles.congr (h : frame.Settles env due) (hsame : frame.SameCode frame')
    (hversions : frame'.versions = frame.versions)
    (huninitialized : frame'.uninitialized = frame.uninitialized) (hloops : frame'.loops = frame.loops) :
    frame'.Settles env due := by
  by_cases hplain : IsPlain frame.function.blocks
  · obtain ⟨hcode, hclosed, hloops', hold⟩ := h.straight hplain
    refine ⟨?_, fun _ => ⟨?_, ?_, hloops.trans hloops', ?_⟩, ?_⟩
    · rw [hsame.entry, hsame.blocks]
      exact h.handed
    · rw [hsame.id, hsame.entry, hsame.header, hsame.blocks, hsame.block, hsame.filled]
      exact hcode
    · rw [hsame.blocks, hsame.block]
      exact hclosed
    · rw [hversions]
      exact fun d p hp => (hold d p hp).mono hsame.id (hsame.written ▸ List.Subset.refl _)
        (huninitialized ▸ id)
    · rw [hsame.blocks]
      exact fun hnot => absurd hplain hnot
  · exact h.of_left hplain hsame

/-! ## Going on -/

theorem Onward.refl (frame : Frame) : frame.Onward frame :=
  ⟨rfl, rfl, fun _ hplain => ⟨hplain, fun _ _ hroute => hroute⟩⟩

theorem Onward.trans {frame'' : Frame} (h : frame.Onward frame') (h' : frame'.Onward frame'') :
    frame.Onward frame'' := by
  refine ⟨h'.kind.trans h.kind, h'.entry.trans h.entry, fun hkind hplain => ?_⟩
  obtain ⟨hplain', hroute⟩ := h.left hkind hplain
  obtain ⟨hplain'', hroute'⟩ := h'.left (h.kind.trans hkind) hplain'
  exact ⟨hplain'', fun id is h => hroute id is (hroute' id is h)⟩

/-- The blocks that are done stay as they are. -/
theorem Onward.of_blocks (hkind : frame'.function.kind = frame.function.kind)
    (hentry : frame'.function.entry = frame.function.entry)
    (hblocks : frame'.function.blocks = frame.function.blocks) : frame.Onward frame' := by
  refine ⟨hkind, hentry, fun _ hplain => ?_⟩
  rw [hentry, hblocks]
  exact ⟨hplain, fun _ _ hroute => hroute⟩

theorem SameCode.onward (h : frame.SameCode frame') : frame.Onward frame' :=
  .of_blocks h.kind h.entry h.blocks

theorem onward_put (frame : Frame) (i : Instr) : frame.Onward (frame.put i) := by
  obtain ⟨header, filled, heq⟩ := frame.put_eq i
  exact .of_blocks (by rw [heq]) (by rw [heq]) (by rw [heq])

theorem onward_endBlock (h : frame.function.kind = .declaration → frame.Settles env due) :
    frame.Onward (frame.endBlock terminal next) :=
  ⟨rfl, rfl, fun hkind hplain => ⟨((h hkind).left_endBlock hplain).1, fun _ _ hroute =>
    ((h hkind).route_endBlock fun hplain' => absurd hplain' hplain).1 hroute⟩⟩

theorem Stays.refl (frame : Frame) : frame.Stays frame := ⟨rfl, rfl, List.Subset.refl _⟩

theorem Stays.trans {frame'' : Frame} (h : frame.Stays frame') (h' : frame'.Stays frame'') :
    frame.Stays frame'' :=
  ⟨h'.block.trans h.block, h'.blocks.trans h.blocks, List.Subset.trans h.written h'.written⟩

theorem SameCode.stays (h : frame.SameCode frame') : frame.Stays frame' :=
  ⟨h.block, h.blocks, h.written ▸ List.Subset.refl _⟩

theorem stays_put (frame : Frame) (i : Instr) : frame.Stays (frame.put i) := by
  obtain ⟨header, filled, heq⟩ := frame.put_eq i
  exact ⟨by rw [heq], by rw [heq], fun _ hc => mem_written_put.2 (.inl hc)⟩

/-! ## Versions -/

theorem Settles.weaken (h : frame.Settles env none) (due : Option DeclId) : frame.Settles env due where
  handed := h.handed
  straight hplain := by
    obtain ⟨hcode, hclosed, hloops, hold⟩ := h.straight hplain
    exact ⟨hcode, hclosed, hloops, fun d p hp =>
      ⟨(hold d p hp).owner, (hold d p hp).recorded, fun _ => (hold d p hp).ready nofun⟩⟩
  left := h.left

/-- A version is handed out, and due to be written. -/
theorem Settles.insert (h : frame.Settles env (some d)) (howner : env.ownerOf d = some frame.function.id)
    (hrecorded : ∃ r ∈ env.versionsOf d, r.place = p) :
    ({ frame with versions := frame.versions.insert d p } : Frame).Settles env (some d) where
  handed := h.handed
  straight hplain := by
    obtain ⟨hcode, hclosed, hloops, hold⟩ := h.straight hplain
    refine ⟨hcode, hclosed, hloops, fun d' p' hp' => ?_⟩
    rw [Table.get?_insert] at hp'
    split at hp'
    · next heq =>
      obtain rfl := Option.some.inj hp'
      subst heq
      exact ⟨howner, hrecorded, fun hdue => absurd rfl hdue⟩
    · obtain ⟨howner', hrecorded', hready⟩ := hold d' p' hp'
      exact ⟨howner', hrecorded', hready⟩
  left := h.left

/-- A declaration may be used from now on, once it is written. -/
theorem Settles.assigned (h : frame.Settles env none) (d : DeclId) (unclaimed : KeySet DeclId) :
    ({ frame with uninitialized := frame.uninitialized.erase d, unclaimed } : Frame).Settles env
      (some d) where
  handed := h.handed
  straight hplain := by
    obtain ⟨hcode, hclosed, hloops, hold⟩ := h.straight hplain
    refine ⟨hcode, hclosed, hloops, fun d' p' hp' => ?_⟩
    obtain ⟨howner, hrecorded, hready⟩ := hold d' p' hp'
    refine ⟨howner, hrecorded, fun hdue => (hready nofun).imp_right (.imp_left fun hd' => ?_)⟩
    rw [Table.contains_erase, Bool.and_eq_true]
    exact ⟨by simpa using fun heq => hdue (by rw [heq]), hd'⟩
  left := h.left

/-- A declaration may not be used yet. -/
theorem Settles.uninitialized (h : frame.Settles env (some d)) :
    ({ frame with uninitialized := KeySet.add frame.uninitialized d } : Frame).Settles env none where
  handed := h.handed
  straight hplain := by
    obtain ⟨hcode, hclosed, hloops, hold⟩ := h.straight hplain
    refine ⟨hcode, hclosed, hloops, fun d' p' hp' => ?_⟩
    obtain ⟨howner, hrecorded, hready⟩ := hold d' p' hp'
    refine ⟨howner, hrecorded, fun _ => ?_⟩
    rw [KeySet.contains_add]
    by_cases hd : d' = d
    · exact .inr (.inl (by simp [hd]))
    · refine (hready fun heq => hd (Option.some.inj heq).symm).imp_right (.imp_left fun hd' => ?_)
      simp [hd']
  left := h.left

/-- A declaration starts with a version that is hoisted. -/
theorem Settles.hoisted (h : frame.Settles env (some d))
    (hstarts : IsPlain frame.function.blocks → ∀ p, frame.versions.get? d = some p →
      p.StartsHoisted env) : frame.Settles env none where
  handed := h.handed
  straight hplain := by
    obtain ⟨hcode, hclosed, hloops, hold⟩ := h.straight hplain
    refine ⟨hcode, hclosed, hloops, fun d' p' hp' => ?_⟩
    obtain ⟨howner, hrecorded, hready⟩ := hold d' p' hp'
    refine ⟨howner, hrecorded, fun _ => ?_⟩
    by_cases hd : d' = d
    · subst hd
      exact .inr (.inr (hstarts hplain p' hp'))
    · exact hready fun heq => hd (Option.some.inj heq).symm
  left := h.left

/-- A declaration that may be used is read as it is. -/
theorem Settles.initialized (h : frame.Settles env none) (hp : frame.versions.get? d = some p)
    (hd : frame.uninitialized.contains d = false) : frame.Initialized env p := by
  intro hplain _ _
  rcases ((h.straight hplain).versions d p hp).ready nofun with hwritten | hearly | hstarts
  · exact .inl hwritten
  · rw [hd] at hearly
    cases hearly
  · exact .inr hstarts

end Frame

end Whittle.Lowering
