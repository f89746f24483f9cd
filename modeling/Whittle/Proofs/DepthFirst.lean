import Mathlib.Logic.Relation
import Mathlib.Tactic.Common
import Whittle.Proofs.Table

/-!
# Walks in depth

A walk goes to the nodes of a list one after the other, and from each new one first to all nodes that come next.
A node is finished when everything behind it is.  What has been seen but not finished leads to where the walk is;
so a node is finished behind all nodes that come next to it, but for those that lead back.

Nodes to which all ways lead through one node are finished between the time when the walk comes to that node and
the time when it leaves it.

Main statements: `Walk.mem_done_iff`, `Walk.nodup`, `Walk.seen_of_leads`, `Walk.leads`, `Walk.inOrder` and
`Walk.sublist_of_behind`.
-/

namespace Whittle.DepthFirst

variable {α : Type}

/-- One node leads to the other. -/
def Leads (next : α → List α) : α → α → Prop := Relation.ReflTransGen fun x y => y ∈ next x

/-- In a list of finished nodes, the last one first, all that comes next to a node was finished before it or
leads back to it. -/
def InOrder (next : α → List α) : List α → Prop
  | [] => True
  | x :: done => (∀ y ∈ next x, y ∈ done ∨ Leads next y x) ∧ InOrder next done

theorem InOrder.sublist {next : α → List α} {done : List α} (h : InOrder next done) {x y : α} (hx : x ∈ done)
    (hy : y ∈ next x) (hback : ¬ Leads next y x) : [x, y].Sublist done := by
  induction done with
  | nil => cases hx
  | cons z done ih =>
    rcases List.mem_cons.1 hx with rfl | hx
    · have hdone : y ∈ done := (h.1 y hy).resolve_right hback
      exact (List.singleton_sublist.2 hdone).cons_cons x
    · exact (ih h.2 hx).cons z

variable [Ord α] [Std.TransOrd α]

/-- A walk to the nodes of a list: what has been seen and what is finished, before and afterwards. -/
inductive Walk (next : α → List α) : List α → KeySet α × List α → KeySet α × List α → Prop
  | nil (acc : KeySet α × List α) : Walk next [] acc acc
  | skip {x : α} {xs : List α} {acc acc' : KeySet α × List α} (hseen : acc.1.contains x = true)
      (hrest : Walk next xs acc acc') : Walk next (x :: xs) acc acc'
  | visit {x : α} {xs : List α} {seen seen' : KeySet α} {done done' : List α} {acc' : KeySet α × List α}
      (hnew : seen.contains x = false) (hnext : Walk next (next x) (seen.add x, done) (seen', done'))
      (hrest : Walk next xs (seen', x :: done') acc') : Walk next (x :: xs) (seen, done) acc'

namespace Walk

variable {next : α → List α} {xs : List α} {acc acc' acc'' : KeySet α × List α}

theorem append {ys : List α} (h : Walk next xs acc acc') (h' : Walk next ys acc' acc'') :
    Walk next (xs ++ ys) acc acc'' := by
  induction h with
  | nil => exact h'
  | skip hseen _ ih => exact .skip hseen (ih h')
  | visit hnew hnext _ _ ih => exact .visit hnew hnext (ih h')

theorem foldl {step : KeySet α × List α → α → KeySet α × List α}
    (hstep : ∀ acc x, Walk next [x] acc (step acc x)) (xs : List α) (acc : KeySet α × List α) :
    Walk next xs acc (xs.foldl step acc) := by
  induction xs generalizing acc with
  | nil => exact .nil acc
  | cons x xs ih =>
    rw [List.foldl_cons]
    exact (hstep acc x).append (ih _)

variable [Std.LawfulEqOrd α] [DecidableEq α]

/-- What has been seen stays seen. -/
theorem seen_mono (h : Walk next xs acc acc') {b : α} (hb : acc.1.contains b = true) :
    acc'.1.contains b = true := by
  induction h with
  | nil => exact hb
  | skip _ _ ih => exact ih hb
  | visit _ _ _ ihnext ih =>
    refine ih (ihnext ?_)
    rw [KeySet.contains_add, hb, Bool.or_true]

/-- Nodes that have been seen may be left out. -/
theorem of_filter {seen : KeySet α} (hseen : ∀ b, seen.contains b = true → acc.1.contains b = true)
    (h : Walk next (xs.filter fun x => !seen.contains x) acc acc') : Walk next xs acc acc' := by
  induction xs generalizing acc with
  | nil => exact h
  | cons x xs ih =>
    by_cases hx : seen.contains x = true
    · rw [List.filter_cons_of_neg (by simp [hx])] at h
      exact .skip (hseen x hx) (ih hseen h)
    · rw [List.filter_cons_of_pos (by simp [hx])] at h
      cases h with
      | skip hx' hrest => exact .skip hx' (ih hseen hrest)
      | visit hnew hnext hrest =>
        refine .visit hnew hnext (ih (fun b hb => hnext.seen_mono ?_) hrest)
        rw [KeySet.contains_add, hseen b hb, Bool.or_true]

/-- The nodes of the list are seen. -/
theorem seen_of_mem (h : Walk next xs acc acc') {x : α} (hx : x ∈ xs) : acc'.1.contains x = true := by
  induction h with
  | nil => cases hx
  | skip hseen hrest ih =>
    rcases List.mem_cons.1 hx with rfl | hx
    · exact hrest.seen_mono hseen
    · exact ih hx
  | visit _ hnext hrest _ ih =>
    rcases List.mem_cons.1 hx with rfl | hx
    · refine hrest.seen_mono (hnext.seen_mono ?_)
      rw [KeySet.contains_add, decide_eq_true rfl, Bool.true_or]
    · exact ih hx

/-- Exactly what is seen on the walk is finished on it. -/
theorem mem_done_iff (h : Walk next xs acc acc') {b : α} :
    b ∈ acc'.2 ↔ b ∈ acc.2 ∨ (acc'.1.contains b = true ∧ acc.1.contains b = false) := by
  induction h with
  | nil acc => simp +contextual
  | skip _ _ ih => exact ih
  | @visit x xs seen seen' done done' acc' hnew hnext hrest ihnext ih =>
    have hmono (hb : seen'.contains b = true) : acc'.1.contains b = true := hrest.seen_mono hb
    have hstart : seen.contains b = true → seen'.contains b = true := fun hb =>
      hnext.seen_mono (by rw [KeySet.contains_add, hb, Bool.or_true])
    have hx : seen'.contains x = true :=
      hnext.seen_mono (by rw [KeySet.contains_add, decide_eq_true rfl, Bool.true_or])
    rw [ih, List.mem_cons, ihnext]
    simp only [KeySet.contains_add]
    by_cases hbx : b = x
    · subst hbx
      simp [hnew, hmono hx]
    · cases hb : seen.contains b <;> cases hb' : seen'.contains b <;> simp_all

theorem nodup (h : Walk next xs acc acc') (hdone : acc.2.Nodup)
    (hseen : ∀ b ∈ acc.2, acc.1.contains b = true) : acc'.2.Nodup := by
  induction h with
  | nil => exact hdone
  | skip _ _ ih => exact ih hdone hseen
  | @visit x xs seen seen' done done' acc' hnew hnext hrest ihnext ih =>
    have hadd (b : α) (hb : b ∈ done) : (seen.add x).contains b = true := by
      rw [KeySet.contains_add, hseen b hb, Bool.or_true]
    have hfinished (b : α) (hb : b ∈ done') : seen'.contains b = true :=
      (hnext.mem_done_iff.1 hb).elim (fun hb => hnext.seen_mono (hadd b hb)) (·.1)
    have hx : x ∉ done' := by
      intro hmem
      rcases hnext.mem_done_iff.1 hmem with hmem | ⟨-, hmem⟩
      · exact Bool.false_ne_true (hnew.symm.trans (hseen x hmem))
      · simp at hmem
    refine ih (List.nodup_cons.2 ⟨hx, ihnext hdone hadd⟩) fun b hb => ?_
    rcases List.mem_cons.1 hb with rfl | hb
    · exact hnext.seen_mono (by simp)
    · exact hfinished b hb

/-- What is seen on the walk, a node of the list leads to. -/
theorem leads (h : Walk next xs acc acc') {b : α} (hb : acc'.1.contains b = true)
    (hnew : acc.1.contains b = false) : ∃ x ∈ xs, Leads next x b := by
  induction h with
  | nil => exact absurd hb (by simp [hnew])
  | skip _ _ ih =>
    obtain ⟨x, hx, hleads⟩ := ih hb hnew
    exact ⟨x, List.mem_cons_of_mem _ hx, hleads⟩
  | @visit x xs seen seen' done done' acc' _ _ _ ihnext ih =>
    cases hmiddle : seen'.contains b with
    | false =>
      obtain ⟨y, hy, hleads⟩ := ih hb hmiddle
      exact ⟨y, List.mem_cons_of_mem _ hy, hleads⟩
    | true =>
      refine ⟨x, List.mem_cons_self, ?_⟩
      by_cases hbx : b = x
      · exact hbx ▸ .refl
      · obtain ⟨y, hy, hleads⟩ := ihnext hmiddle (by simp [hbx, hnew])
        exact .head hy hleads

/-- What comes next to a node that is seen on the walk is seen. -/
theorem seen_next (h : Walk next xs acc acc') {b c : α} (hb : acc'.1.contains b = true)
    (hnew : acc.1.contains b = false) (hc : c ∈ next b) : acc'.1.contains c = true := by
  induction h with
  | nil => exact absurd hb (by simp [hnew])
  | skip _ _ ih => exact ih hb hnew
  | @visit x xs seen seen' done done' acc' _ hnext hrest ihnext ih =>
    cases hmiddle : seen'.contains b with
    | false => exact ih hb hmiddle
    | true =>
      refine hrest.seen_mono ?_
      by_cases hbx : b = x
      · exact hnext.seen_of_mem (hbx ▸ hc)
      · exact ihnext hmiddle (by simp [hbx, hnew])

/-- A walk that begins with nothing seen sees whatever a node of its list leads to. -/
theorem seen_of_leads (h : Walk next xs (∅, []) acc') {x b : α} (hx : x ∈ xs) (hleads : Leads next x b) :
    acc'.1.contains b = true := by
  induction hleads with
  | refl => exact h.seen_of_mem hx
  | tail _ hstep ih => exact h.seen_next ih rfl hstep

/-- The order of finished nodes is kept where all that is seen but not finished leads to the list. -/
theorem inOrder (h : Walk next xs acc acc')
    (hopen : ∀ b, acc.1.contains b = true → b ∈ acc.2 ∨ ∀ x ∈ xs, Leads next b x)
    (hdone : InOrder next acc.2) : InOrder next acc'.2 := by
  induction h with
  | nil => exact hdone
  | skip _ _ ih =>
    exact ih (fun b hb => (hopen b hb).imp_right fun h x hx => h x (List.mem_cons_of_mem _ hx)) hdone
  | @visit x xs seen seen' done done' acc' hnew hnext _ ihnext ih =>
    have hinner : InOrder next done' := by
      refine ihnext (fun b hb => ?_) hdone
      simp only [KeySet.contains_add, Bool.or_eq_true, decide_eq_true_eq] at hb
      rcases hb with rfl | hb
      · exact .inr fun y hy => .single hy
      · exact (hopen b hb).imp_right fun h y hy => (h x List.mem_cons_self).tail hy
    -- what is still open when `x` is finished was open before, or is `x`
    have hfinished (b : α) (hb : seen'.contains b = true) (hbx : b ≠ x) :
        b ∈ done' ∨ ∀ y ∈ x :: xs, Leads next b y := by
      cases hold : seen.contains b with
      | false => exact .inl (hnext.mem_done_iff.2 (.inr ⟨hb, by simp [hbx, hold]⟩))
      | true => exact (hopen b hold).imp_left fun hmem => hnext.mem_done_iff.2 (.inl hmem)
    refine ih (fun b hb => ?_) ⟨fun y hy => ?_, hinner⟩
    · by_cases hbx : b = x
      · exact .inl (hbx ▸ List.mem_cons_self)
      · exact (hfinished b hb hbx).imp (List.mem_cons_of_mem _) fun h y hy => h y (List.mem_cons_of_mem _ hy)
    · by_cases hyx : y = x
      · exact .inr (hyx ▸ .refl)
      · exact (hfinished y (hnext.seen_of_mem hy) hyx).imp_right fun h => h x List.mem_cons_self

/-! What lies behind one node. -/

omit [DecidableEq α] [Std.LawfulEqOrd α] in
/-- What is finished stays where it is. -/
theorem done_suffix (h : Walk next xs acc acc') : acc.2 <:+ acc'.2 := by
  induction h with
  | nil => exact List.suffix_refl _
  | skip _ _ ih => exact ih
  | @visit x _ _ _ _ done' _ _ _ _ ihnext ih => exact ihnext.trans ((List.suffix_cons x done').trans ih)

section Behind

variable {a : α} {P : α → Prop} (hP : ∀ x y, y ∈ next x → P y → x = a ∨ P x)
include hP

/-- What only `a` leads to has not been seen when the walk comes to `a`, if it is ever seen. -/
theorem exists_visit (h : Walk next xs acc acc') (hxs : ∀ x ∈ xs, ¬ P x)
    (hacc : ∀ b, P b → acc.1.contains b = false) :
    (∀ b, P b → acc'.1.contains b = false) ∨
      ∃ (seen seen' : KeySet α) (done done' : List α), (∀ b, P b → seen.contains b = false) ∧
        Walk next (next a) (seen.add a, done) (seen', done') ∧ a :: done' <:+ acc'.2 := by
  induction h with
  | nil => exact .inl hacc
  | skip _ _ ih => exact ih (fun x hx => hxs x (List.mem_cons_of_mem _ hx)) hacc
  | @visit x xs seen seen' done done' acc' _ hnext hrest ihnext ih =>
    by_cases hxa : x = a
    · subst hxa
      exact .inr ⟨seen, seen', done, done', hacc, hnext, hrest.done_suffix⟩
    · have hx : ¬ P x := hxs x List.mem_cons_self
      have hsuffix : done' <:+ acc'.2 := (List.suffix_cons x done').trans hrest.done_suffix
      have hinner := ihnext (fun y hy hPy => (hP x y hy hPy).elim hxa hx) fun b hb => by
        rw [KeySet.contains_add, hacc b hb, Bool.or_false, decide_eq_false]
        rintro rfl
        exact hx hb
      rcases hinner with hnone | ⟨s, s', d, d', hs, hwalk, hmem⟩
      · exact ih (fun y hy => hxs y (List.mem_cons_of_mem _ hy)) hnone
      · exact .inr ⟨s, s', d, d', hs, hwalk, hmem.trans hsuffix⟩

/-- What only `a` leads to is finished before `a` is. -/
theorem sublist_of_behind (h : Walk next xs (∅, []) acc') (ha : ¬ P a) (hxs : ∀ x ∈ xs, ¬ P x) {x b : α}
    (hx : x ∈ xs) (hleads : Leads next x b) (hb : P b) : [a, b].Sublist acc'.2 := by
  rcases h.exists_visit hP hxs (fun _ _ => rfl) with hnone | ⟨seen, seen', done, done', hnew, hwalk, hsuffix⟩
  · exact absurd (h.seen_of_leads hx hleads) (by simp [hnone b hb])
  have hnew' (c : α) (hc : P c) : (seen.add a).contains c = false := by
    rw [KeySet.contains_add, hnew c hc, Bool.or_false, decide_eq_false]
    rintro rfl
    exact ha hc
  -- by induction on the way to it, what lies behind `a` is seen while `a` is open
  have hseen : seen'.contains b = true := by
    induction hleads with
    | refl => exact absurd hb (hxs x hx)
    | tail _ hstep ih =>
      rcases hP _ _ hstep hb with rfl | hc
      · exact hwalk.seen_of_mem hstep
      · exact hwalk.seen_next (ih hc) (hnew' _ hc) hstep
  have hdone : b ∈ done' := hwalk.mem_done_iff.2 (.inr ⟨hseen, hnew' b hb⟩)
  exact ((List.singleton_sublist.2 hdone).cons_cons a).trans hsuffix.sublist

end Behind

end Walk

end Whittle.DepthFirst
