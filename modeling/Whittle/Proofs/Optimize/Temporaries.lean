import Mathlib.Tactic.Common
import Whittle.Proofs.Optimize.Definitions

/-!
# Temporaries

A temporary is read behind its definition, in the same block or in the same header.  Lowering puts it
so.  A pass that removes a definition removes one that nobody reads; a pass that moves a read moves it
to a place that was defined before, or to a variable; blocks that are put together stay in order.  A
call that is replaced is a temporary as well: it is read in its own block only, behind the copy of the
function that it called.

Main statement: `Module.temporaries_defined`.
-/

namespace Whittle.Ir

section Blocks

variable {env env' : Environment} {last : List Place} {known : List CellId} {is js : List Instr}

/-! ## Instructions of a block -/

/-- What nobody reads can go. -/
theorem Ordered.thin (unread : CellId → Prop) (h : Ordered env last known is)
    (hthins : Thins Instr.Weakens (fun i => ∀ p ∈ i.defined, unread p.cell.id) is js)
    (hreads : ∀ i ∈ is, ∀ p ∈ i.reads, ¬unread p.cell.id) (hlast : ∀ p ∈ last, ¬unread p.cell.id) :
    Ordered env last known js := by
  have hread : Thins (fun i j => i.Weakens j ∧ ∀ p ∈ i.reads, ¬unread p.cell.id)
      (fun i => ∀ p ∈ i.defined, unread p.cell.id) is js :=
    hthins.imp_mem (fun i hi j hij => ⟨hij, hreads i hi⟩) fun _ _ hi => hi
  -- what is defined without the removed instructions is all that is read
  refine Ordered.imitate (R := fun known known' => ∀ c ∈ known, ¬unread c → c ∈ known') ?_ ?_ ?_ h
    hread fun c hc _ => hc
  · intro i j known known' hij hrel hready
    obtain ⟨hij, hi⟩ := hij
    refine ⟨⟨fun p hp htemporary => ?_, fun hop => ?_, fun hop => ?_⟩, fun c hc hunread => ?_⟩
    · exact hrel _ (hready.reads p (hij.reads hp) htemporary) (hi p (hij.reads hp))
    · rw [hij.place]
      exact hready.unnamed (hij.unnamed hop)
    · rw [hij.place]
      exact hready.bound (hij.binding hop)
    · rw [hij.writes]
      rcases List.mem_append.1 hc with hc | hc
      · exact List.mem_append_left _ hc
      · exact List.mem_append_right _ (hrel c hc hunread)
  · intro i known known' hi hrel c hc hunread
    rcases List.mem_append.1 hc with hc | hc
    · obtain ⟨p, hp, rfl⟩ := List.mem_map.1 hc
      exact absurd (hi p hp) hunread
    · exact hrel c hc hunread
  · intro known known' hrel havailable p hp htemporary
    exact hrel _ (havailable p hp htemporary) (hlast p hp)

theorem Forwarding.Keeps.mono {good good' : Place → Prop} {s : Forwarding} (h : s.Keeps good)
    (hgood : ∀ p, good p → good' p) : s.Keeps good' :=
  ⟨fun id p hp => hgood p (h.stores id p hp), fun id e he => hgood e.1 (h.loads id e he)⟩

/-- Values that were stored before are still there. -/
theorem Ordered.forwardBlock {canSkip : Place → Place → Bool} {s : Forwarding}
    (h : Ordered env last known is) (hs : s.Keeps (Available env known)) :
    Ordered env last known (forwardBlock canSkip s is).2 := by
  induction is generalizing s known with
  | nil => exact h
  | cons i is ih =>
    obtain ⟨hready, hrest⟩ := h
    have hlater (p : Place) (hp : Available env known p) : Available env (i.writes ++ known) p :=
      hp.mono (List.subset_append_right _ _)
    -- a store of another value defines the same
    have hstore (op : Op) (value : Place) (hreads : op.reads = [value]) (hop : i.op.isUnnamed = true)
        (hop' : op.isUnnamed = true) (htarget : op.target? = i.op.target?)
        (hvalue : Available env known value) {s' : Forwarding} (hs' : s'.Keeps (Available env known)) :
        Ordered env last known ({ i with op } :: (Ir.forwardBlock canSkip s' is).2) := by
      have hwrites : ({ i with op } : Instr).writes = i.writes := by
        simp only [Instr.writes, Instr.defined, htarget]
      refine ⟨.of_unnamed ?_ (hready.unnamed hop) hop', hwrites ▸ ih hrest (hs'.mono hlater)⟩
      simpa [Instr.reads, hreads] using hvalue
    rw [Ir.forwardBlock]
    split
    · exact ⟨hready, ih hrest ((hs.noteLoad _ _).mono hlater)⟩
    · next target value kind hop =>
      have hvalue := hs.source target (hready.reads value (by simp [Instr.reads, hop, Op.reads]))
      exact hstore _ _ rfl (by rw [hop]; rfl) rfl (by rw [hop]; rfl) hvalue (hs.noteStore canSkip target hvalue)
    · next target value hop =>
      have hvalue := hs.source target (hready.reads value (by simp [Instr.reads, hop, Op.reads]))
      exact hstore _ _ rfl (by rw [hop]; rfl) rfl (by rw [hop]; rfl) hvalue hs
    · exact ⟨hready, ih hrest (hs.mono hlater)⟩

/-- Instructions that can stand anywhere. -/
theorem Ordered.of_ready (h : ∀ i ∈ is, ∀ known, i.Ready env known) : Ordered env [] known is := by
  induction is generalizing known with
  | nil => rintro p ⟨⟩
  | cons i is ih =>
    obtain ⟨hi, his⟩ := List.forall_mem_cons.1 h
    exact ⟨hi known, ih his⟩

/-- An instruction that reads only variables can stand anywhere. -/
theorem Ordered.insertBehind (h : Ordered env last known is) {new : Instr}
    (hnew : ∀ known, new.Ready env known) (p : Instr → Bool) :
    Ordered env last known (insertBehind p new is) := by
  induction is generalizing known with
  | nil => exact ⟨hnew known, h.mono (List.subset_append_right _ _)⟩
  | cons i is ih =>
    rw [Ir.insertBehind]
    split
    · exact ⟨h.1, hnew _, h.2.mono (List.subset_append_right _ _)⟩
    · exact ⟨h.1, ih h.2⟩

theorem Op.isUnnamed_mapReads (g : Place → Place) (op : Op) : (op.mapReads g).isUnnamed = op.isUnnamed := by
  cases op <;> rfl

theorem Op.isBinding_mapReads (g : Place → Place) (op : Op) : (op.mapReads g).isBinding = op.isBinding := by
  cases op <;> rfl

/-- An instruction that reads other places. -/
theorem Instr.Ready.mapReads {g : Place → Place} {i : Instr} {known' : List CellId}
    (h : i.Ready env known) (hg : ∀ p ∈ i.reads, Available env known p → Available env known' (g p)) :
    (i.mapReads g).Ready env known' := by
  refine ⟨fun p hp => ?_, fun hop => h.unnamed (by rwa [← Op.isUnnamed_mapReads g]),
    fun hop => h.bound (by rwa [← Op.isBinding_mapReads g])⟩
  rw [Instr.reads, Instr.mapReads, Op.reads_mapReads] at hp
  obtain ⟨q, hq, rfl⟩ := List.mem_map.1 hp
  exact hg q hq (h.reads q hq)

theorem Instr.writes_mapReads (g : Place → Place) (i : Instr) : (i.mapReads g).writes = i.writes := by
  rw [Instr.writes, Instr.writes, Instr.defined_mapReads]

theorem Block.lastReads_mapReads (g : Place → Place) (b : Block) :
    (b.mapReads g).lastReads = b.lastReads.map g := by
  rw [Block.lastReads, Block.lastReads, Block.mapReads]
  cases b.terminal with
  | none => rfl
  | some t => exact t.reads_mapReads g

end Blocks

/-! ## Functions -/

namespace Function

variable {f f' : Function} {env env' : Environment} {cells : List Cell} {id : FuncId}

/-- Which places are temporaries is all that counts. -/
theorem InOrder.congr (h : f.InOrder env) (henv : ∀ d, env'.isTemporary d = env.isTemporary d) :
    f.InOrder env' :=
  ⟨Ordered.congr h.header (fun _ _ _ _ => henv _) fun _ _ => henv _,
    fun b block hb => Ordered.congr (h.blocks b block hb) (fun _ _ _ _ => henv _) fun _ _ => henv _⟩

theorem InOrder.setBlock (h : f.InOrder env) (b : BlockId) {block : Block} (hblock : block.InOrder env) :
    (f.setBlock b block).InOrder env :=
  ⟨h.header, forall_setBlock h.blocks b hblock⟩

theorem InOrder.mapBlocks (h : f.InOrder env) {g : BlockId → Block → Block}
    (hg : ∀ b block, f.blocks.get? b = some block → (g b block).InOrder env) :
    (f.mapBlocks g).InOrder env :=
  ⟨h.header, forall_mapBlocks hg⟩

theorem InOrder.reworks {R : List Instr → List Instr → Prop} (h : f.InOrder env) (hf : f.Reworks R f')
    (hR : ∀ b block, f.blocks.get? b = some block → ∀ is, R block.instructions is →
      Ordered env block.lastReads [] is) : f'.InOrder env := by
  obtain ⟨change, rfl, hchange⟩ := hf
  apply h.mapBlocks
  intro b block hb
  obtain ⟨hterminal, his⟩ := hchange b block hb
  rw [Block.InOrder, Block.lastReads, hterminal]
  exact hR b block hb _ his

theorem InOrder.dropUnreachable (h : f.InOrder env) : f.dropUnreachable.2.InOrder env := by
  rw [dropUnreachable_eq]
  exact ⟨h.header, forall_dropUnreachable h.blocks⟩

/-- The block in front ends with a jump, which reads nothing. -/
theorem InOrder.merge (h : f.InOrder env) {target source : BlockId} {merged : Block}
    (hmerged : f.blocks.get? source = some merged) : (f.merge target source merged).InOrder env := by
  have hbehind : Ordered env merged.lastReads [] merged.instructions := h.blocks source merged hmerged
  refine ⟨h.header, forall_merge h.blocks fun block hblock => ?_⟩
  exact Ordered.append_iff.2 ⟨Ordered.opened hblock, hbehind.mono (List.nil_subset _)⟩

/-! Joins. -/

theorem InOrder.withStore (h : f.InOrder env) (first : VersionRecord) {store : Instr}
    (hstore : ∀ known, store.Ready env known) : (f.withStore first store).InOrder env :=
  ⟨h.header, forall_withStore h.blocks fun _ hblock => Ordered.insertBehind hblock hstore _⟩

/-- Reads of the operands become reads of the phi, which is a variable. -/
theorem InOrder.redirectReads (h : f.InOrder env) {phi : Phi}
    (hphi : env.isTemporary phi.declaration = false) : (f.redirectReads env phi).InOrder env := by
  apply h.mapBlocks
  intro b block hb
  split
  · set g : Place → Place := fun p =>
      if (KeySet.ofList (phi.operands.values.map (·.cell.id))).contains p.cell.id then phi.place else p
      with hg
    have havailable (ids : List CellId) (p : Place) (hp : Available env ids p) :
        Available env ids (g p) := by
      rw [hg]
      dsimp only
      split
      · exact .of_named hphi
      · exact hp
    refine Ordered.imitate (S := fun i j => j = i ∨ j = i.mapReads g) (R := fun ids ids' => ids' = ids)
      (G := fun _ => False) ?_ (fun _ _ _ hgone => hgone.elim) ?_ (h.blocks b block hb) ?_ rfl
    · intro i j ids ids' hij hrel hready
      subst hrel
      rcases hij with rfl | rfl
      · exact ⟨hready, rfl⟩
      · exact ⟨hready.mapReads fun p _ => havailable _ p, by rw [Instr.writes_mapReads]⟩
    · intro ids ids' hrel hlast p hp
      subst hrel
      rw [Block.lastReads] at hlast hp
      cases hterminal : block.terminal with
      | none =>
        rw [hterminal] at hp
        cases hp
      | some t =>
        simp only [hterminal, Option.map_some, Option.getD_some] at hlast hp
        split at hp
        · rw [Terminal.reads_mapReads] at hp
          obtain ⟨q, hq, rfl⟩ := List.mem_map.1 hp
          exact havailable _ q (hlast q hq)
        · exact hlast p hp
    · apply Thins.of_forall₂
      rw [List.forall₂_iff_get]
      refine ⟨by simp, fun index _ _ => ?_⟩
      simp only [List.get_eq_getElem, List.getElem_mapIdx]
      split
      · exact .inr rfl
      · exact .inl rfl
  · exact h.blocks b block hb

/-- Each of the copying instructions reads what the one before it defines. -/
theorem ordered_copyInstrs {phi : Phi} {operand : Place} (hlogs : env.Logs cells) (owner : FuncId)
    (ids : List CellId)
    (h : (copyInstrs phi owner operand env).2.isTemporary operand.declaration = false) :
    Ordered (copyInstrs phi owner operand env).2 [] ids (copyInstrs phi owner operand env).1 := by
  rw [copyInstrs] at h ⊢
  dsimp only at h ⊢
  have hload := Environment.op_newInstr env owner (.loadLocal operand)
  have hloaded := env.isTemporary_newInstr owner (.loadLocal operand)
  obtain ⟨cells₁, hadvance₁, hof₁, -⟩ := Advance.newInstr hlogs owner (.loadLocal operand)
  generalize env.newInstr owner (.loadLocal operand) = load at *
  have hcopy := Environment.op_newInstr load.2 owner (.copy phi.place load.1.place)
  have hcopied := load.2.isTemporary_newInstr owner (.copy phi.place load.1.place)
  obtain ⟨cells₂, hadvance₂, hof₂, -⟩ :=
    Advance.newInstr hadvance₁.logs owner (.copy phi.place load.1.place)
  generalize load.2.newInstr owner (.copy phi.place load.1.place) = copy at *
  have hstatement := Environment.op_newInstr copy.2 owner (.expressionStatement copy.1.place)
  have hstated := copy.2.isTemporary_newInstr owner (.expressionStatement copy.1.place)
  obtain ⟨cells₃, hadvance₃, -⟩ :=
    Advance.newInstr hadvance₂.logs owner (.expressionStatement copy.1.place)
  generalize copy.2.newInstr owner (.expressionStatement copy.1.place) = statement at *
  rw [← hadvance₃.temporary _ (hadvance₂.logs.has hof₂).2] at hcopied
  rw [← (hadvance₂.trans hadvance₃).temporary _ (hadvance₁.logs.has hof₁).2] at hloaded
  simp [Ordered, Instr.ready_iff, Instr.reads, hload, hcopy, hstatement, Op.reads, Available,
    Instr.writes, Instr.defined, Op.isBinding, h, hloaded, hcopied, hstated]

/-- The function comes further with every change for a phi, and it stays in order. -/
theorem survives_inOrder {phi : Phi} (hphi : phi.Fits env cells) (id : FuncId) :
    Survives (fun f env' => (∃ cells', Advance env cells env' cells' ∧ f.Fits env' cells' id) ∧
      f.InOrder env') phi where
  store := by
    rintro f env₁ first ⟨hfits, horder⟩ hfirst
    refine ⟨(hphi.survives id).store f env₁ first hfits hfirst, ?_⟩
    obtain ⟨cells₁, hadvance, hf⟩ := hfits
    obtain ⟨cells₂, hnew, -⟩ := Advance.newInstr hadvance.logs f.id
      (.storeLocal phi.place first.place .reassign)
    obtain ⟨-, hdeclaration⟩ := hadvance.logs.recorded _ first (List.mem_of_find?_eq_some hfirst)
    -- the first version is a version of the variable that the phi joins
    have hnamed := hnew.named (hadvance.phi hphi).named
    refine (hnew.inOrder hadvance.logs hf horder).withStore first fun ids =>
      .of_unnamed ?_ (Environment.isTemporary_newInstr ..) rfl
    intro p hp
    obtain rfl := List.mem_singleton.1 hp
    exact .of_named (hdeclaration ▸ hnamed)
  redirect := by
    rintro f env₁ ⟨hfits, horder⟩
    refine ⟨(hphi.survives id).redirect f env₁ hfits, ?_⟩
    obtain ⟨cells₁, hadvance, -⟩ := hfits
    exact horder.redirectReads (hadvance.phi hphi).named
  copy := by
    rintro f env₁ predecessor operand b ⟨hfits, horder⟩ hoperand hb
    refine ⟨(hphi.survives id).copy f env₁ predecessor operand b hfits hoperand hb, ?_⟩
    obtain ⟨cells₁, hadvance, hf⟩ := hfits
    have hphi₁ := hadvance.phi hphi
    obtain ⟨hof, hdeclaration⟩ := hphi₁.operands predecessor operand hoperand
    obtain ⟨cells₂, hnew, -⟩ := Advance.copyInstrs hadvance.logs hphi₁.place f.id hof
    have hlater := hnew.inOrder hadvance.logs hf horder
    have hnamed := hnew.named hphi₁.named
    rw [← hdeclaration] at hnamed
    exact hlater.setBlock predecessor
      (Ordered.extend (hlater.blocks predecessor b hb) (ordered_copyInstrs hadvance.logs f.id _ hnamed))

theorem InOrder.eliminateSsa (h : f.InOrder env) (hf : f.Fits env cells id) (hlogs : env.Logs cells)
    (hout : f.eliminateSsa env = .ok (f', env')) : f'.InOrder env' := by
  have hstart : ({ f with phis := [] } : Function).Fits env cells id :=
    ⟨hf.id, ⟨hf.uses.params, hf.uses.header, hf.uses.blocks⟩, by rintro phi ⟨⟩⟩
  exact (eliminateSsa_induction (fun phi hphi _ => survives_inOrder (hf.phis phi hphi) id)
    ⟨⟨cells, .refl hlogs, hstart⟩, ⟨h.header, h.blocks⟩⟩ hout).2

end Function

/-! ## Calls that are replaced -/

section Redirect

variable {env : Environment} {last : List Place} {known known' : List CellId} {is : List Instr}
  {call : Place} {result : Option Place}

/-- Where the value of a call is not defined, it is not read, and nothing is redirected. -/
theorem Ordered.redirect_undefined (h : Ordered env last known is)
    (htemporary : env.isTemporary call.declaration = true)
    (hsame : ∀ p ∈ is.flatMap (·.reads) ++ last, p.cell.id = call.cell.id → p.cell = call.cell)
    (hknown : call.cell.id ∉ known) (hwrites : call.cell.id ∉ is.flatMap (·.writes)) :
    Ordered env (last.map (redirect call result)) known
      (is.map (·.mapReads (redirect call result))) := by
  have hkept (ids : List CellId) (hids : call.cell.id ∉ ids) (p : Place)
      (hp : p ∈ is.flatMap (·.reads) ++ last) (havailable : Available env ids p) :
      Available env ids (redirect call result p) := by
    by_cases hid : p.cell.id = call.cell.id
    · have hdeclaration : p.declaration = call.declaration := congrArg Cell.declaration (hsame p hp hid)
      exact absurd (hid ▸ havailable (hdeclaration ▸ htemporary)) hids
    · rwa [redirect_of_ne result hid]
  refine Ordered.imitate
    (S := fun i j => j = i.mapReads (redirect call result) ∧ i ∈ is) (G := fun _ => False)
    (R := fun ids ids' => ids' = ids ∧ call.cell.id ∉ ids) ?_ (fun _ _ _ hgone => hgone.elim) ?_ h ?_
    ⟨rfl, hknown⟩
  · rintro i _ ids _ ⟨rfl, hi⟩ ⟨rfl, hids⟩ hready
    refine ⟨hready.mapReads fun p hp => ?_, by rw [Instr.writes_mapReads], fun hc => ?_⟩
    · exact hkept _ hids p (List.mem_append_left _ (List.mem_flatMap.2 ⟨i, hi, hp⟩))
    · rcases List.mem_append.1 hc with hc | hc
      · exact hwrites (List.mem_flatMap.2 ⟨i, hi, hc⟩)
      · exact hids hc
  · rintro ids _ ⟨rfl, hids⟩ hlast p hp
    obtain ⟨q, hq, rfl⟩ := List.mem_map.1 hp
    exact hkept _ hids q (List.mem_append_right _ hq) (hlast q hq)
  · apply Thins.of_forall₂
    rw [List.forall₂_map_right_iff]
    exact List.forall₂_same.2 fun i hi => ⟨rfl, hi⟩

/-- Where the value of a call is replaced by one that is there, everything else stays. -/
theorem Ordered.redirect_defined (h : Ordered env last known is)
    (hknown : ∀ c ∈ known, c = call.cell.id ∨ c ∈ known')
    (hresult : ∀ q, result = some q → Available env known' q)
    (hnone : result = none → call.cell.id ∈ known') :
    Ordered env (last.map (redirect call result)) known'
      (is.map (·.mapReads (redirect call result))) := by
  have hkept (ids ids' : List CellId) (hids : ∀ c ∈ ids, c = call.cell.id ∨ c ∈ ids')
      (hmore : known' ⊆ ids') (p : Place) (havailable : Available env ids p) :
      Available env ids' (redirect call result p) := by
    by_cases hid : p.cell.id = call.cell.id
    · cases hresult' : result with
      | none =>
        intro _
        exact hid ▸ hmore (hnone hresult')
      | some q =>
        rw [redirect, if_pos (beq_iff_eq.2 hid)]
        exact (hresult q hresult').mono hmore
    · rw [redirect_of_ne result hid]
      intro htemporary
      exact (hids _ (havailable htemporary)).resolve_left hid
  refine Ordered.imitate (S := fun i j => j = i.mapReads (redirect call result)) (G := fun _ => False)
    (R := fun ids ids' => (∀ c ∈ ids, c = call.cell.id ∨ c ∈ ids') ∧ known' ⊆ ids') ?_
    (fun _ _ _ hgone => hgone.elim) ?_ h ?_ ⟨hknown, fun _ hc => hc⟩
  · rintro i _ ids ids' rfl ⟨hids, hmore⟩ hready
    refine ⟨hready.mapReads fun p _ => hkept ids ids' hids hmore p, fun c hc => ?_, fun c hc => ?_⟩
    · rw [Instr.writes_mapReads]
      rcases List.mem_append.1 hc with hc | hc
      · exact .inr (List.mem_append_left _ hc)
      · exact (hids c hc).imp_right (List.mem_append_right _)
    · exact List.mem_append_right _ (hmore hc)
  · rintro ids ids' ⟨hids, hmore⟩ hlast p hp
    obtain ⟨q, hq, rfl⟩ := List.mem_map.1 hp
    exact hkept ids ids' hids hmore q (hlast q hq)
  · apply Thins.of_forall₂
    rw [List.forall₂_map_right_iff]
    exact List.forall₂_same.2 fun i _ => rfl

/-- Blocks one behind the other. -/
theorem ordered_blocks {blocks : List Block} (h : ∀ b ∈ blocks, b.InOrder env) (ids : List CellId) :
    Ordered env [] ids (blocks.flatMap (·.instructions)) := by
  induction blocks generalizing ids with
  | nil => rintro p ⟨⟩
  | cons b blocks ih =>
    obtain ⟨hb, hblocks⟩ := List.forall_mem_cons.1 h
    have hfirst : Ordered env [] ids b.instructions := (Ordered.opened hb).mono (List.nil_subset _)
    exact Ordered.append_iff.2 ⟨hfirst, ih hblocks _⟩

/-- A body ends with the read of what it returns. -/
theorem ordered_body {body : List Block} (h : ∀ b ∈ body, b.InOrder env) (ids : List CellId) :
    Ordered env (returned? body).toList ids (body.flatMap (·.instructions)) := by
  cases hreturned : returned? body with
  | none => exact ordered_blocks h ids
  | some p =>
    obtain ⟨b, hb, hterminal⟩ : ∃ b, body.getLast? = some b ∧ b.terminal = some (.ret (some p)) := by
      rw [returned?] at hreturned
      split at hreturned
      · next value hlast =>
        obtain ⟨b, hb, hterminal⟩ := Option.bind_eq_some_iff.1 hlast
        exact ⟨b, hb, by rw [hterminal, hreturned]⟩
      · cases hreturned
    have hsplit : body = body.dropLast ++ [b] := (List.dropLast_append_getLast? b hb).symm
    have hlast : b.InOrder env := h b (List.mem_of_getLast? hb)
    rw [Block.InOrder, Block.lastReads, hterminal] at hlast
    rw [hsplit, List.flatMap_append, List.flatMap_singleton]
    refine Ordered.append_iff.2 ⟨ordered_blocks (fun b' hb' => h b' (List.dropLast_subset _ hb')) ids, ?_⟩
    exact Ordered.mono hlast (List.nil_subset _)

end Redirect

/-- Different instructions define different cells, as far as these have numbered versions. -/
theorem Module.NumberedOnce.apart {m : Module} {env : Environment} {cells : List Cell}
    (h : m.NumberedOnce) (hall : m.AllUse env cells) {i : Instr} {others : List Instr}
    (hperm : m.instructions.Perm (i :: others)) {p : Place} (hp : p ∈ i.defined)
    (hnumbered : p.cell.version.isNumbered = true) : p.cell.id ∉ others.flatMap (·.writes) := by
  have hdefined : m.defined.Perm (i.defined ++ others.flatMap (·.defined)) :=
    hperm.flatMap_right fun i : Instr => i.defined
  have hnodup : (numberedCells (i.defined ++ others.flatMap (·.defined))).Nodup :=
    ((hdefined.filter _).map _).nodup_iff.1 h.nodup
  rw [numberedCells_append] at hnodup
  have hmem : p.cell.id ∈ numberedCells i.defined :=
    List.mem_map.2 ⟨p, List.mem_filter.2 ⟨hp, hnumbered⟩, rfl⟩
  intro hother
  obtain ⟨j, hj, hid⟩ := List.mem_flatMap.1 hother
  obtain ⟨q, hq, hid⟩ := List.mem_map.1 hid
  have hq : q ∈ others.flatMap (·.defined) := List.mem_flatMap.2 ⟨j, hj, hq⟩
  -- places of one number are places of one cell, so both versions are numbered
  have hcell := (hall.isOf_defined (hdefined.symm.subset (List.mem_append_right _ hq))).single
    (hall.isOf_defined (hdefined.symm.subset (List.mem_append_left _ hp))) hid
  have hmem' : p.cell.id ∈ numberedCells (others.flatMap (·.defined)) :=
    List.mem_map.2 ⟨q, List.mem_filter.2 ⟨hq, hcell ▸ hnumbered⟩, hid⟩
  exact List.disjoint_of_nodup_append hnodup hmem hmem'

namespace Splice

variable {m : Module} {env : Environment} {start : List Cell} (s : Splice m env start)

theorem isOf_original {i : Instr} (hi : i ∈ s.original) {p : Place} (hp : p ∈ i.places) :
    p.IsOf start :=
  s.copyable.known p (Function.places_of_instr (s.mem_callee hi) hp)

/-- Counterparts of temporaries are temporaries. -/
theorem isTemporary_place (hall : m.AllUse env start) {p : Place} (hp : p.IsOf start)
    (hcovers : s.copying.Covers p) :
    s.after.isTemporary (s.copying.place p).declaration = env.isTemporary p.declaration := by
  by_cases howner : s.copying.env.ownerOf p.declaration = some s.copying.callee
  · have hget := hcovers.get?_places howner
    have hdeclared := Environment.index_lt_of_ownerOf (s.expands.goes.fresh.owner _ _ hget)
    rw [(s.advance_copied hall).temporary _ hdeclared]
    exact s.expands.goes.fresh.temporary _ _ hget _ hp
  · rw [Copying.place_of_foreign howner]
    exact (s.advance hall).temporary _ (s.copyable.logs.has hp).2

/-- The value of the call is a temporary. -/
theorem isTemporary_call (horder : s.caller.InOrder env) :
    env.isTemporary s.call.place.declaration = true := by
  have hblock : Ordered env _ _ _ := horder.blocks _ _ s.block_mem
  rw [s.block_eq] at hblock
  exact hblock.ready.unnamed (by rw [s.call_op]; rfl)

/-- No other instruction of the caller defines it. -/
theorem not_mem_writes (hall : m.AllUse env start) (honce : m.NumberedOnce)
    (htemporary : env.isTemporary s.call.place.declaration = true) :
    s.call.place.cell.id ∉ (s.block.instructions.take s.site.index ++
      s.block.instructions.drop (s.site.index + 1) ++
      s.caller.instructionsBeside s.site.block).flatMap (·.writes) := by
  have hmodule := Module.instructions_perm s.caller_mem
  have hcaller := Function.instructions_perm s.block_mem
  rw [s.block_eq] at hcaller
  generalize s.block.instructions.take s.site.index = before at *
  generalize s.block.instructions.drop (s.site.index + 1) = after at *
  generalize s.caller.instructionsBeside s.site.block = beside at *
  have hperm : m.instructions.Perm (s.call :: (before ++ after ++ beside ++
      m.instructionsBeside s.caller.id)) := by
    refine hmodule.trans ((hcaller.append_right _).trans ?_)
    simp only [List.append_assoc, List.cons_append]
    exact List.perm_middle
  have hcall := hall.isOf_defined (List.mem_flatMap.2
    ⟨s.call, hperm.symm.subset List.mem_cons_self, List.mem_cons_self⟩)
  have hothers := honce.apart hall hperm (p := s.call.place) List.mem_cons_self
    (s.copyable.logs.isNumbered hcall htemporary)
  intro hmem
  apply hothers
  rw [List.flatMap_append]
  exact List.mem_append_left _ hmem

theorem isUnnamed_mapPlaces (g : Place → Place) (op : Op) : (op.mapPlaces g).isUnnamed = op.isUnnamed := by
  cases op <;> rfl

theorem isBinding_mapPlaces (g : Place → Place) (op : Op) : (op.mapPlaces g).isBinding = op.isBinding := by
  cases op <;> rfl

/-- Copied code reads counterparts behind their definitions, as the callee's code does. -/
theorem ordered_copied (hall : m.AllUse env start) (horder : s.callee.InOrder env) (ids : List CellId) :
    Ordered s.after s.result.toList ids s.copied := by
  have hcode : Ordered env (returned? s.body).toList [] s.toInlining.code := by
    apply ordered_body
    intro b hb
    obtain ⟨id, hid⟩ := Table.mem_values.1 (s.copyable.body b hb)
    exact horder.blocks id b hid
  have hcovers (i : Instr) (hi : i ∈ s.toInlining.code) (p : Place) (hp : p ∈ i.places) :
      p.IsOf start ∧ s.copying.Covers p :=
    ⟨s.isOf_original (List.mem_append_right _ hi) hp, s.expands.covers i (List.mem_append_right _ hi) p hp⟩
  -- what is defined on the left is the callee's own, with its counterpart defined on the right
  let Related (known known' : List CellId) : Prop := ∀ p : Place, p.IsOf start → p.cell.id ∈ known →
    env.ownerOf p.declaration = some s.callee.id ∧ (s.copying.place p).cell.id ∈ known'
  have havailable (known known' : List CellId) (hrel : Related known known') (p : Place)
      (hp : p.IsOf start) (hcovers : s.copying.Covers p) (h : Available env known p) :
      Available s.after known' (s.copying.place p) := by
    intro htemporary
    rw [s.isTemporary_place hall hp hcovers] at htemporary
    exact (hrel p hp (h htemporary)).2
  refine Ordered.imitate (S := fun i j => s.copying.IsCopy i j ∧ i ∈ s.toInlining.code)
    (G := fun _ => False) (R := Related) ?_ (fun _ _ _ hgone => hgone.elim) ?_ hcode ?_
    (by rintro p - ⟨⟩)
  · rintro i j known known' ⟨hcopy, hi⟩ hrel hready
    obtain ⟨hplaceOf, hplace⟩ := hcovers i hi i.place i.place_mem_places
    have hsame : s.after.isTemporary j.place.declaration = env.isTemporary i.place.declaration := by
      rw [hcopy.place, s.isTemporary_place hall hplaceOf hplace]
    refine ⟨⟨fun p hp => ?_, fun hop => ?_, fun hop => ?_⟩, fun p hp hmem => ?_⟩
    · rw [Instr.reads, hcopy.op, Op.reads_mapPlaces] at hp
      obtain ⟨q, hq, rfl⟩ := List.mem_map.1 hp
      obtain ⟨hof, hq'⟩ := hcovers i hi q (List.mem_append_left _ hq)
      exact havailable known known' hrel q hof hq' (hready.reads q hq)
    · rw [hcopy.op, isUnnamed_mapPlaces] at hop
      exact hsame.trans (hready.unnamed hop)
    · rw [hcopy.op, isBinding_mapPlaces] at hop
      exact hsame.trans (hready.bound hop)
    · rcases List.mem_append.1 hmem with hmem | hmem
      · obtain ⟨q, hq, hid⟩ := List.mem_map.1 hmem
        have hcell := (hcovers i hi q (List.mem_append_right _ hq)).1.single hp hid
        have howner := s.copyable.owned i (s.copyable.mem_of_code hi) q hq
        rw [Place.declaration, hcell] at howner
        refine ⟨howner, List.mem_append_left _ ?_⟩
        rw [Instr.writes, Instr.defined_mapPlaces hcopy.op hcopy.place]
        refine List.mem_map.2 ⟨_, List.mem_map_of_mem hq, ?_⟩
        rw [Copying.cell_place, Copying.cell_place, hcell]
      · exact (hrel p hp hmem).imp_right (List.mem_append_right _)
  · intro known known' hrel hlast p hp
    obtain ⟨q, hq, rfl⟩ := Option.map_eq_some_iff.1 (Option.mem_toList.1 hp)
    have hof := s.copyable.known q (s.copyable.mem_of_returned hq)
    exact havailable known known' hrel q hof (s.expands.covers_returned q hq)
      (hlast q (Option.mem_toList.2 hq))
  · exact (Thins.of_forall₂ s.expands.body).imp_mem (fun i hi j hij => ⟨hij, hi⟩) fun _ _ hgone => hgone

/-- What stands in the place of the call reads the arguments and what it defines itself. -/
theorem ordered_main (hall : m.AllUse env start) (horder : s.callee.InOrder env) (ids : List CellId)
    (harguments : ∀ p ∈ s.arguments, Available s.after ids p) :
    Ordered s.after s.result.toList ids s.main := by
  have hmain : s.main = s.array :: (s.header ++ s.pattern :: s.bind :: s.copied) := by simp [main]
  have hheader : ∀ j ∈ s.header, ∀ ids, j.Ready s.after ids := by
    refine forall_of_forall₂ s.expands.header fun i hi j hcopy ids => ?_
    obtain ⟨name, hop⟩ := s.copyable.bindings i hi
    have hop' : j.op = .binding name := by
      rw [hcopy.op, hop]
      rfl
    have hmem : i ∈ s.callee.header ++ s.toInlining.code := List.mem_append_left _ hi
    have hnamed : s.after.isTemporary j.place.declaration = false := by
      rw [hcopy.place, s.isTemporary_place hall (s.isOf_original hmem i.place_mem_places)
        (s.expands.covers i hmem i.place i.place_mem_places)]
      exact horder.header.named_binding hi (by rw [hop]; rfl)
    simp [Instr.ready_iff, Instr.reads, hop', Op.reads, Op.isUnnamed, hnamed]
  -- the parameters are defined by the copy of the header
  have hparams (p : Place) (hp : p ∈ s.callee.params) :
      (s.copying.place p).cell.id ∈ s.header.flatMap (·.writes) := by
    obtain ⟨i, hi, hcell⟩ := s.copyable.params p hp
    have hdefined : s.copying.place i.place ∈ s.header.flatMap (·.defined) := by
      rw [defined_copies s.expands.header]
      exact List.mem_map_of_mem (List.mem_flatMap.2 ⟨i, hi, List.mem_cons_self⟩)
    obtain ⟨j, hj, hplace⟩ := List.mem_flatMap.1 hdefined
    refine List.mem_flatMap.2 ⟨j, hj, List.mem_map.2 ⟨_, hplace, ?_⟩⟩
    rw [Copying.cell_place, Copying.cell_place, hcell]
  have hnew (p : Place) (hp : p ∈ [s.bind.place, s.pattern.place, s.array.place]) :
      s.after.isTemporary p.declaration = true := by
    obtain ⟨hof, htemporary⟩ := s.expands.goes.fresh.reserved_known p hp
    rwa [(s.advance_copied hall).temporary _ (s.expands.goes.env.logs.has hof).2]
  rw [hmain]
  refine ⟨.of_unnamed ?_ (hnew _ (by simp)) (s.expands.array_op ▸ rfl), Ordered.append_iff.2
    ⟨.of_ready hheader, .of_unnamed ?_ (hnew _ (by simp)) (s.expands.pattern_op ▸ rfl),
      .of_unnamed ?_ (hnew _ (by simp)) (s.expands.bind_op ▸ rfl), s.ordered_copied hall horder _⟩⟩
  · rw [Instr.reads, s.expands.array_op]
    exact harguments
  · intro p hp _
    rw [Instr.reads, s.expands.pattern_op] at hp
    obtain ⟨q, hq, rfl⟩ : ∃ q ∈ s.callee.params, s.copying.place q = p := by
      simpa [Op.reads] using hp
    exact List.mem_append_left _ (hparams q hq)
  · intro p hp _
    rw [Instr.reads, s.expands.bind_op] at hp
    have hcases : p = s.pattern.place ∨ p = s.array.place := by simpa [Op.reads] using hp
    rcases hcases with rfl | rfl
    · exact List.mem_append_left _ (List.mem_map_of_mem List.mem_cons_self)
    · refine List.mem_append_right _ (List.mem_append_right _ (List.mem_append_left _ ?_))
      exact List.mem_map_of_mem List.mem_cons_self

/-- The block of the call, with the call replaced. -/
theorem ordered_instructions (hall : m.AllUse env start) (hcallee : s.callee.InOrder env)
    (hblock : Ordered s.after s.block.lastReads [] s.block.instructions)
    (htemporary : s.after.isTemporary s.call.place.declaration = true)
    (hcall : s.call.place.IsOf start)
    (hbefore : s.call.place.cell.id ∉ (s.block.instructions.take s.site.index).flatMap (·.writes)) :
    Ordered s.after (s.block.lastReads.map (redirect s.call.place s.result)) []
      (s.instructions.map (·.mapReads (redirect s.call.place s.result))) := by
  have hsame (i : Instr) (hi : i ∈ s.instructions) (p : Place) (hp : p ∈ i.reads)
      (hid : p.cell.id = s.call.place.cell.id) : p.cell = s.call.place.cell :=
    (s.isOf_instructions hall i hi p (List.mem_append_left _ hp)).single
      (hcall.mono (s.advance hall).cells) hid
  rw [s.block_eq] at hblock
  rw [s.instructions_eq] at hsame ⊢
  generalize s.block.instructions.take s.site.index = before at *
  generalize s.block.instructions.drop (s.site.index + 1) = later at *
  obtain ⟨hfirst, hready, hlater⟩ := Ordered.append_iff.1 hblock
  have hmain := s.ordered_main hall hcallee _ fun p hp => hready.reads p (by
    rw [Instr.reads, s.call_op]
    exact List.mem_cons_of_mem _ hp)
  have hnew : s.call.place.cell.id ∉ s.main.flatMap (·.writes) := by
    intro hmem
    obtain ⟨i, hi, hid⟩ := List.mem_flatMap.1 hmem
    obtain ⟨p, hp, hid⟩ := List.mem_map.1 hid
    have hle := (s.between_main (List.mem_flatMap.2 ⟨i, hi, hp⟩)).1
    have hlt := (s.copyable.logs.has hcall).1
    rw [hid] at hle
    omega
  have hwrites (is : List Instr) : (is.map (·.mapReads (redirect s.call.place s.result))).flatMap
      (·.writes) = is.flatMap (·.writes) := by
    rw [List.flatMap_map]
    exact List.flatMap_congr fun i _ => i.writes_mapReads _
  simp only [List.map_append, Ordered.append_iff, hwrites]
  refine ⟨?_, ?_, ?_, ?_⟩
  · refine Ordered.redirect_undefined hfirst htemporary ?_ List.not_mem_nil hbefore
    intro p hp
    obtain ⟨i, hi, hp⟩ := List.mem_flatMap.1 (List.append_nil _ ▸ hp)
    exact hsame i (List.mem_append_left _ hi) p hp
  · refine Ordered.redirect_undefined hmain.opened htemporary ?_ (List.append_nil _ ▸ hbefore) hnew
    intro p hp
    obtain ⟨i, hi, hp⟩ := List.mem_flatMap.1 (List.append_nil _ ▸ hp)
    exact hsame i (List.mem_append_right _ (List.mem_append_left _ hi)) p hp
  · apply Ordered.of_ready
    intro i hi ids
    obtain ⟨j, hj, rfl⟩ := List.mem_map.1 hi
    rw [Inlining.closing] at hj
    cases hreturned : returned? s.body with
    | some q => simp [hreturned] at hj
    | none =>
      obtain rfl : j = { s.call with op := .literal .undefined } := by simpa [hreturned] using hj
      exact .of_unnamed (by rintro p ⟨⟩) htemporary rfl
  · refine Ordered.redirect_defined hlater (fun c hc => ?_) (fun q hq => ?_) fun hnone => ?_
    · rcases List.mem_append.1 hc with hc | hc
      · left
        simpa [Instr.writes, Instr.defined, s.call_op, Op.target?] using hc
      · exact .inr (List.mem_append_right _ (List.mem_append_right _ hc))
    · exact (hmain.available_last (Option.mem_toList.2 hq)).mono (List.subset_append_right _ _)
    · have hreturned : returned? s.body = none := Option.map_eq_none_iff.1 hnone
      simp [Inlining.closing, hreturned, Instr.writes, Instr.defined]

/-- The caller reads the result in the place of the value of the call. -/
theorem inOrder_replaced (hall : m.AllUse env start) (honce : m.NumberedOnce)
    (hcallee : s.callee.InOrder env) (hcaller : s.caller.InOrder env) :
    s.replaced.InOrder s.after := by
  have hadvance := s.advance hall
  have hfits := hall _ _ s.caller_mem
  have horder := hadvance.inOrder s.copyable.logs hfits hcaller
  have hcall : s.call.place.IsOf start :=
    (hfits.uses.blocks _ _ s.block_mem).instructions _ s.call_mem_block _ s.call.place_mem_places
  have htemporary := s.isTemporary_call hcaller
  have hafter : s.after.isTemporary s.call.place.declaration = true :=
    (hadvance.temporary _ (s.copyable.logs.has hcall).2).trans htemporary
  have hwrites := s.not_mem_writes hall honce htemporary
  have hsame (p : Place) (hp : p.IsOf s.cells) (hid : p.cell.id = s.call.place.cell.id) :
      p.cell = s.call.place.cell :=
    hp.single (hcall.mono hadvance.cells) hid
  refine ⟨horder.header, fun b block hb => ?_⟩
  rw [replaced, Function.mapBlocks, Table.get?_map] at hb
  obtain ⟨block₀, hblock₀, rfl⟩ := Option.map_eq_some_iff.1 hb
  rw [spliced, Function.get?_setBlock] at hblock₀
  rw [Block.InOrder, Block.lastReads_mapReads]
  split at hblock₀
  · obtain rfl := Option.some.inj hblock₀
    apply s.ordered_instructions hall hcallee (horder.blocks _ _ s.block_mem) hafter hcall
    intro hmem
    apply hwrites
    rw [List.flatMap_append, List.flatMap_append]
    exact List.mem_append_left _ (List.mem_append_left _ hmem)
  · next hne =>
    have huses := (hadvance.fits hfits).uses.blocks b block₀ hblock₀
    refine Ordered.redirect_undefined (horder.blocks b block₀ hblock₀) hafter ?_ (List.not_mem_nil) ?_
    · intro p hp
      apply hsame
      rcases List.mem_append.1 hp with hp | hp
      · obtain ⟨i, hi, hp⟩ := List.mem_flatMap.1 hp
        exact huses.instructions i hi p (List.mem_append_left _ hp)
      · exact huses.lastReads p hp
    · intro hmem
      obtain ⟨i, hi, hid⟩ := List.mem_flatMap.1 hmem
      apply hwrites
      refine List.mem_flatMap.2 ⟨i, List.mem_append_right _ (List.mem_append_right _ ?_), hid⟩
      have hkept : (s.caller.blocks.erase s.site.block).get? b = some block₀ := by
        rw [Table.get?_erase, if_neg hne, hblock₀]
      exact List.mem_flatMap.2 ⟨block₀, Table.mem_values.2 ⟨b, hkept⟩, hi⟩

end Splice

/-! ## Modules -/

namespace Module

variable {m m' : Module} {env env' : Environment} {cells cells' : List Cell} {id : FuncId} {f : Function}

/-- The temporaries of every function are read behind their definitions. -/
def InOrder (env : Environment) (m : Module) : Prop :=
  ∀ id f, m.functions.get? id = some f → f.InOrder env

theorem InOrder.exists_ready (h : m.InOrder env) {i : Instr} (hi : i ∈ m.instructions) :
    ∃ known, i.Ready env known := by
  obtain ⟨f, hf, hi⟩ := List.mem_flatMap.1 hi
  obtain ⟨id, hf⟩ := Table.mem_values.1 hf
  rcases List.mem_append.1 hi with hi | hi
  · exact (h id f hf).header.exists_ready hi
  · obtain ⟨block, hblock, hi⟩ := List.mem_flatMap.1 hi
    obtain ⟨b, hb⟩ := Table.mem_values.1 hblock
    exact Ordered.exists_ready ((h id f hf).blocks b block hb) hi

/-- What has no name is kept in temporaries. -/
theorem InOrder.isTemporary_place (h : m.InOrder env) {i : Instr} (hi : i ∈ m.instructions)
    (hop : i.op.isUnnamed = true) : env.isTemporary i.place.declaration = true := by
  obtain ⟨_, hready⟩ := h.exists_ready hi
  exact hready.unnamed hop

/-- What a pattern binds is a variable. -/
theorem InOrder.named_binding (h : m.InOrder env) {i : Instr} (hi : i ∈ m.instructions)
    (hop : i.op.isBinding = true) : env.isTemporary i.place.declaration = false := by
  obtain ⟨_, hready⟩ := h.exists_ready hi
  exact hready.bound hop

theorem InOrder.temporariesFirst (h : m.InOrder env) (hf : f ∈ m.functions.values) :
    TemporariesFirst env f.header ∧ ∀ b ∈ f.blocks.values, TemporariesFirst env b.instructions := by
  obtain ⟨id, hf⟩ := Table.mem_values.1 hf
  refine ⟨(h id f hf).header.temporariesFirst, fun block hblock => ?_⟩
  obtain ⟨b, hb⟩ := Table.mem_values.1 hblock
  exact Ordered.temporariesFirst ((h id f hf).blocks b block hb)

theorem InOrder.setFunction (h : m.InOrder env) (hf : f.InOrder env) :
    (m.setFunction id f).InOrder env := by
  intro id' f' hf'
  rw [get?_setFunction] at hf'
  split at hf'
  · exact Option.some.inj hf' ▸ hf
  · exact h id' f' hf'

theorem InOrder.advance (h : m.InOrder env) (hall : m.AllUse env cells) (hlogs : env.Logs cells)
    (hadvance : Advance env cells env' cells') : m.InOrder env' :=
  fun id f hf => hadvance.inOrder hlogs (hall id f hf) (h id f hf)

theorem InOrder.reworks {R : List Instr → List Instr → Prop} (h : m.InOrder env) (hm : m.Reworks R m')
    (hR : ∀ id f b block, m.functions.get? id = some f → f.blocks.get? b = some block →
      ∀ is, R block.instructions is → Ordered env block.lastReads [] is) : m'.InOrder env := by
  intro id f' hf'
  obtain ⟨f, hf, hreworks⟩ := hm.get? hf'
  exact (h id f hf).reworks hreworks fun b block => hR id f b block hf

/-- What a block reads, the module reads. -/
theorem mem_readCells (hf : m.functions.get? id = some f) {b : BlockId} {block : Block}
    (hb : f.blocks.get? b = some block) {p : Place}
    (hp : (∃ i ∈ block.instructions, p ∈ i.reads) ∨ p ∈ block.lastReads) :
    p.cell.id ∈ m.readCells := by
  have hblock : block ∈ f.blocks.values := Table.mem_values.2 ⟨b, hb⟩
  refine List.mem_map_of_mem (List.mem_flatMap.2 ⟨f, Table.mem_values.2 ⟨id, hf⟩, ?_⟩)
  rcases hp with ⟨i, hi, hp⟩ | hp
  · have hmem : i ∈ f.instructions := List.mem_append_right _ (List.mem_flatMap.2 ⟨block, hblock, hi⟩)
    exact List.mem_append_left _ (List.mem_flatMap.2 ⟨i, hmem, hp⟩)
  · rw [Block.lastReads] at hp
    cases hterminal : block.terminal with
    | none => simp [hterminal] at hp
    | some t =>
      rw [hterminal] at hp
      exact List.mem_append_right _
        (List.mem_flatMap.2 ⟨t, List.mem_filterMap.2 ⟨block, hblock, hterminal⟩, hp⟩)

/-- A block without what the module does not read. -/
theorem InOrder.thin (h : m.InOrder env) (hf : m.functions.get? id = some f) {b : BlockId} {block : Block}
    (hb : f.blocks.get? b = some block) {is : List Instr}
    (hthins : Thins Instr.Weakens (fun i => ∀ p ∈ i.defined, p.cell.id ∉ m.readCells)
      block.instructions is) : Ordered env block.lastReads [] is := by
  apply Ordered.thin (· ∉ m.readCells) ((h id f hf).blocks b block hb) hthins
  · intro i hi p hp hunread
    exact hunread (mem_readCells hf hb (.inl ⟨i, hi, hp⟩))
  · intro p hp hunread
    exact hunread (mem_readCells hf hb (.inr hp))

theorem InOrder.sweepDead (h : m.InOrder env) : (m.sweepDead env).2.InOrder env := by
  apply sweepDead_removals _ h
  intro m id f b block before i after hm hf hb hinstrs hunread
  apply hm.setFunction
  apply (hm id f hf).setBlock b
  apply hm.thin hf hb
  rw [hinstrs]
  exact .remove .refl hunread before after

theorem InOrder.mergeBlocks (h : m.InOrder env) :
    (m.mergeBlocks env).2.1.InOrder (m.mergeBlocks env).2.2 := by
  refine mergeBlocks_induction (P := fun m env => m.InOrder env) ?_ ?_ h
  · intro m env id f hm hf
    exact hm.setFunction (hm id f hf).dropUnreachable
  · intro m env id f target source merged hm hf _ hmerged
    -- records have nothing to do with which places are temporaries
    have hrehomed : m.InOrder (env.rehome source target) := fun id f hf =>
      (hm id f hf).congr fun _ => rfl
    exact hrehomed.setFunction ((hrehomed id f hf).merge hmerged)

theorem InOrder.inlineOne (h : m.InOrder env) (hall : m.AllUse env cells) (hlogs : env.Logs cells)
    (honce : m.NumberedOnce) (cache : RecursionCache) :
    (m.inlineOne env cache).2.1.InOrder (m.inlineOne env cache).2.2.1 := by
  rcases hinline : m.inlineOne env cache with ⟨changed, m', env', cache'⟩
  cases changed with
  | false =>
    obtain ⟨rfl, rfl⟩ := inlineOne_eq_false hinline
    exact h
  | true =>
    obtain ⟨s, rfl, rfl⟩ := exists_splice hall hlogs hinline
    have hreplaced := s.inOrder_replaced hall honce (h _ _ s.callee_mem) (h _ _ s.caller_mem)
    exact (h.advance hall hlogs (s.advance hall)).setFunction hreplaced

end Module

theorem Pass.inOrder_step {w : Workbench} {cells : List Cell} (h : w.module.InOrder w.env)
    (hall : w.module.AllUse w.env cells) (hlogs : w.env.Logs cells) (honce : w.module.NumberedOnce)
    (pass : Pass) : (pass.step w).2.module.InOrder (pass.step w).2.env := by
  cases pass with
  | inlining => exact h.inlineOne hall hlogs honce w.recursion
  | propagation =>
    apply h.reworks (w.module.reworks_propagateConstants w.env w.constants)
    intro id f b block hf hb is hfolds
    exact h.thin hf hb (hfolds.thins _)
  | forwarding =>
    apply h.reworks (w.module.reworks_forwardStores w.env)
    rintro id f b block hf hb is ⟨canSkip, -, rfl⟩
    exact Ordered.forwardBlock ((h id f hf).blocks b block hb)
      ⟨fun id p hp => by simp at hp, fun id e he => by simp at he⟩
  | overwriting =>
    apply h.reworks (w.module.reworks_dropOverwritten w.env)
    intro id f b block hf hb is hoverwrites
    apply h.thin hf hb
    refine hoverwrites.thins.imp_mem (fun _ _ _ hij => hij) fun i _ hunread p hp => ?_
    have hcount := hunread p hp
    rw [beq_iff_eq, Module.getD_readCounts] at hcount
    exact List.count_eq_zero.1 hcount
  | sweeping => exact h.sweepDead
  | merging => exact h.mergeBlocks

namespace Module

variable {m m' : Module} {env env' : Environment} {cells : List Cell}

theorem InOrder.next (h : m.InOrder env) (hall : m.AllUse env cells) (hlogs : env.Logs cells)
    (honce : m.NumberedOnce) (hop : Operation m env m' env') : m'.InOrder env' := by
  cases hop with
  | resolve globals => exact h
  | @buildSsa _ _ f _ hf =>
    obtain ⟨_, hadvance, -⟩ := (hall _ _ hf).buildSsa hlogs
    have hlater := h.advance hall hlogs hadvance
    exact hlater.setFunction ⟨(hlater _ _ hf).header, (hlater _ _ hf).blocks⟩
  | eliminateSsa hf hout =>
    obtain ⟨_, hadvance, -⟩ := (hall _ _ hf).eliminateSsa hlogs hout
    exact (h.advance hall hlogs hadvance).setFunction ((h _ _ hf).eliminateSsa (hall _ _ hf) hlogs hout)
  | step w pass => exact pass.inOrder_step h hall hlogs honce

theorem Reached.inOrder (h : m.Reached env) : m.InOrder env := by
  induction h with
  | lower hlower =>
    obtain ⟨cells, -, hlowered⟩ := Syntax.Module.lowered_lower hlower
    exact fun id f hf => (hlowered id f hf).order
  | next hreached hop ih =>
    obtain ⟨cells, hlogs, hall⟩ := hreached.coherent
    exact ih.next hall hlogs hreached.numberedOnce hop

/-- Places of one number are places of one cell. -/
theorem exists_defined {is : List Instr} (his : ∀ i ∈ is, ∀ q ∈ i.places, q.IsOf cells) {p : Place}
    (hp : p.IsOf cells) (hid : p.cell.id ∈ is.flatMap (·.writes) ++ []) :
    ∃ j ∈ is, ∃ q ∈ j.defined, q.cell = p.cell := by
  rw [List.append_nil] at hid
  obtain ⟨j, hj, hid⟩ := List.mem_flatMap.1 hid
  obtain ⟨q, hq, hid⟩ := List.mem_map.1 hid
  exact ⟨j, hj, q, hq, (his j hj q (List.mem_append_right _ hq)).single hp hid⟩

theorem exists_defined_before {is before after : List Instr} {i : Instr} {last : List Place}
    (horder : Ordered env last [] is) (his : ∀ i ∈ is, ∀ q ∈ i.places, q.IsOf cells)
    (hsplit : is = before ++ i :: after) {p : Place} (hp : p ∈ i.reads)
    (htemporary : env.isTemporary p.declaration = true) :
    ∃ j ∈ before, ∃ q ∈ j.defined, q.cell = p.cell := by
  subst hsplit
  obtain ⟨hbefore, hi⟩ := List.forall_mem_append.1 his
  apply exists_defined hbefore (hi i List.mem_cons_self p (List.mem_append_left _ hp))
  exact horder.ready.reads p hp htemporary

/-- Temporaries are defined before they are read: whatever operations have led to a module, a temporary
that an instruction reads is defined by an instruction in front of it, in the same block or in the same
header, and a temporary that a terminal reads is defined in the block that the terminal ends. -/
theorem temporaries_defined (h : m.Reached env) {id : FuncId} {f : Function}
    (hf : m.functions.get? id = some f) :
    (∀ b block, f.blocks.get? b = some block →
      (∀ before i after, block.instructions = before ++ i :: after → ∀ p ∈ i.reads,
        env.isTemporary p.declaration = true → ∃ j ∈ before, ∃ q ∈ j.defined, q.cell = p.cell) ∧
      ∀ t, block.terminal = some t → ∀ p ∈ t.reads, env.isTemporary p.declaration = true →
        ∃ j ∈ block.instructions, ∃ q ∈ j.defined, q.cell = p.cell) ∧
    ∀ before i after, f.header = before ++ i :: after → ∀ p ∈ i.reads,
      env.isTemporary p.declaration = true → ∃ j ∈ before, ∃ q ∈ j.defined, q.cell = p.cell := by
  obtain ⟨cells, -, hall⟩ := h.coherent
  have huses := (hall id f hf).uses
  have horder := h.inOrder id f hf
  constructor
  · intro b block hb
    have hblock := huses.blocks b block hb
    constructor
    · intro before i after hsplit p
      exact exists_defined_before (horder.blocks b block hb) hblock.instructions hsplit
    · intro t ht p hp htemporary
      apply exists_defined hblock.instructions (hblock.terminal t ht p hp)
      have hlast : p ∈ block.lastReads := by rwa [Block.lastReads, ht]
      exact Ordered.available_last (horder.blocks b block hb) hlast htemporary
  · intro before i after hsplit p
    exact exists_defined_before horder.header huses.header hsplit

/-- A call is replaced, and a temporary that was not there before is read behind its definition. -/
theorem temporaries_defined_takingFirst :
    ∃ (w : Workbench) (id : FuncId) (f : Function) (b : BlockId) (block : Block) (before : List Instr)
      (i : Instr) (after : List Instr) (p : Place),
      joined? takingFirst = some (w.module, w.env) ∧ w.module.Reached w.env ∧
      (Pass.inlining.step w).1 = true ∧
      (Pass.inlining.step w).2.module.functions.get? id = some f ∧ f.blocks.get? b = some block ∧
      block.instructions = before ++ i :: after ∧ p ∈ i.reads ∧
      w.env.nextCell.index ≤ p.cell.id.index ∧
      (Pass.inlining.step w).2.env.isTemporary p.declaration = true ∧
      ∃ j ∈ before, ∃ q ∈ j.defined, q.cell = p.cell := by
  obtain ⟨⟨m, env⟩, hjoined, hinlined, ⟨id, f⟩, hf, ⟨b, block⟩, hb, i, hi, p, hp, hnew, htemporary⟩ :
      ∃ t ∈ joined? takingFirst, (Pass.inlining.step ⟨t.1, t.2, {}, ∅⟩).1 = true ∧
        ∃ e ∈ (Pass.inlining.step ⟨t.1, t.2, {}, ∅⟩).2.module.functions.entries,
        ∃ e' ∈ e.2.blocks.entries, ∃ i ∈ e'.2.instructions, ∃ p ∈ i.reads,
          t.2.nextCell.index ≤ p.cell.id.index ∧
          (Pass.inlining.step ⟨t.1, t.2, {}, ∅⟩).2.env.isTemporary p.declaration = true := by
    decide +kernel
  have hreached : m.Reached env := (arises_of_joined? hjoined).reached
  have hlater := hreached.next (.step ⟨m, env, {}, ∅⟩ .inlining)
  have hf := Table.mem_entries.1 hf
  have hb := Table.mem_entries.1 hb
  obtain ⟨before, after, hsplit⟩ := List.append_of_mem hi
  exact ⟨⟨m, env, {}, ∅⟩, id, f, b, block, before, i, after, p, hjoined, hreached, hinlined, hf, hb,
    hsplit, hp, hnew, htemporary,
    ((temporaries_defined hlater hf).1 b block hb).1 before i after hsplit p hp htemporary⟩

end Module

end Whittle.Ir
