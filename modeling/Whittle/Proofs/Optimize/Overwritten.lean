import Mathlib.Tactic.Common
import Whittle.Proofs.Optimize.Rounds

/-!
# Overwritten stores

The scan of a block decides about a store when it comes to the next one of the same variable, and by
then that one may wait to be overwritten itself.  What becomes of a store that waits is therefore
settled from behind: by induction on the rest of the block, whatever has been noted so far.

Main statement: `omits_dropOverwritten`.
-/

namespace Whittle.Ir

/-! ## Stores of a variable -/

/-- The instruction is a store of the variable. -/
def Instr.Stores (d : DeclId) (i : Instr) : Prop :=
  ∃ target value kind, i.op = .storeLocal target value kind ∧ target.declaration = d

/-- The version of a variable that a copy writes or a binding makes.  Each variable of a pattern has a
binding of its own, so a destructuring counts for its own place only. -/
def Instr.rebound? (i : Instr) : Option Place :=
  match i.op with
  | .copy target _ => some target
  | .binding _ | .destructure .. => some i.place
  | _ => none

/-- The instruction reads the variable, is a copy to it, or binds it. -/
def Instr.Touches (d : DeclId) (i : Instr) : Prop :=
  (∃ p ∈ i.reads, p.declaration = d) ∨ ∃ p ∈ i.rebound?, p.declaration = d

/-- The variable is stored before any instruction touches it, and the store does not touch it
either. -/
inductive Overwritten (d : DeclId) : List Instr → Prop
  | here {i : Instr} {is : List Instr} : i.Stores d → ¬ i.Touches d → Overwritten d (i :: is)
  | later {i : Instr} {is : List Instr} : ¬ i.Touches d → Overwritten d is → Overwritten d (i :: is)

/-- The first store of the variable declares it. -/
inductive Declares (d : DeclId) : List Instr → Prop
  | here {i : Instr} {is : List Instr} {target value : Place} {kind : StoreKind} :
      i.op = .storeLocal target value kind → target.declaration = d → kind.isDeclaration = true →
      Declares d (i :: is)
  | later {i : Instr} {is : List Instr} : ¬ i.Stores d → Declares d is → Declares d (i :: is)

/-- A store that can go: nothing reads what it defines, and its variable, which no other function sees
change, is overwritten. -/
structure Redundant (env : Environment) (unread : Place → Prop) (i : Instr) (target : Place)
    (rest : List Instr) : Prop where
  unread_place : unread i.place
  unread_target : unread target
  unseen : env.isCapturedMutable target.declaration = false
  overwritten : Overwritten target.declaration rest

/-- The words that stores which went have left to the next ones of their variables, if any. -/
abbrev Legacy := DeclId → Option StoreKind

/-- The word that a store of a variable carries if it is left. -/
def Legacy.word (words : Legacy) (d : DeclId) (kind : StoreKind) : StoreKind :=
  if kind.isDeclaration then kind else (words d).getD kind

/-- The word that a store leaves when it goes. -/
def Legacy.pass (words : Legacy) (d : DeclId) (kind : StoreKind) : Option StoreKind :=
  if kind.isDeclaration then some kind else words d

/-- Instructions without their redundant stores, in the same order.  The stores that are left take over
the words of those that went before them. -/
inductive Omits (env : Environment) (unread : Place → Prop) :
    Legacy → List Instr → List Instr → Prop
  | nil {words : Legacy} : Omits env unread words [] []
  | keep {words : Legacy} {i : Instr} {is js : List Instr} :
      (∀ d, i.Stores d → env.isCapturedMutable d = true) →
      Omits env unread words is js → Omits env unread words (i :: is) (i :: js)
  | store {words : Legacy} {i : Instr} {target value : Place} {kind : StoreKind} {is js : List Instr} :
      i.op = .storeLocal target value kind → ¬ Redundant env unread i target is →
      Omits env unread (Function.update words target.declaration none) is js →
      Omits env unread words (i :: is)
        ({ i with op := .storeLocal target value (words.word target.declaration kind) } :: js)
  | drop {words : Legacy} {i : Instr} {target value : Place} {kind : StoreKind} {is js : List Instr} :
      i.op = .storeLocal target value kind → Redundant env unread i target is →
      (kind.isDeclaration = true → Declares target.declaration js) →
      Omits env unread
        (Function.update words target.declaration (words.pass target.declaration kind)) is js →
      Omits env unread words (i :: is) js

section

variable {env : Environment} {unread : Place → Prop} {i : Instr} {is js : List Instr} {words : Legacy}
  {d : DeclId} {target value : Place} {kind : StoreKind}

theorem Instr.stores_iff (hop : i.op = .storeLocal target value kind) :
    i.Stores d ↔ target.declaration = d := by
  constructor
  · rintro ⟨_, _, _, hop', hd⟩
    cases hop.symm.trans hop'
    exact hd
  · exact fun hd => ⟨_, _, _, hop, hd⟩

/-- A store touches nothing but what it reads. -/
theorem Instr.touches_iff (hop : i.op = .storeLocal target value kind) :
    i.Touches d ↔ value.declaration = d := by
  simp [Touches, rebound?, reads, hop, Op.reads]

theorem Overwritten.of_cons (h : Overwritten d (i :: is)) :
    ¬ i.Touches d ∧ (i.Stores d ∨ Overwritten d is) := by
  cases h with
  | here hstores htouches => exact ⟨htouches, .inl hstores⟩
  | later htouches hlater => exact ⟨htouches, .inr hlater⟩

/-- The word that a store has left reaches the next one of its variable that is left, over all that go
in between. -/
theorem Omits.declares (h : Omits env unread words is js) (hover : Overwritten d is)
    (hunseen : env.isCapturedMutable d = false) {word : StoreKind} (hword : words d = some word)
    (hdeclaration : word.isDeclaration = true) : Declares d js := by
  induction h generalizing word with
  | nil => cases hover
  | @keep words i is js hseen _ ih =>
    have hstores : ¬ i.Stores d := fun hstores =>
      absurd ((hseen d hstores).symm.trans hunseen) (by simp)
    exact .later hstores (ih (hover.of_cons.2.resolve_left hstores) hword hdeclaration)
  | @store words i target value kind is js hop _ _ ih =>
    by_cases hd : target.declaration = d
    · refine .here rfl hd ?_
      rw [hd, Legacy.word, hword, Option.getD_some]
      split <;> assumption
    · have hstores : ¬ i.Stores d := fun hstores => hd ((Instr.stores_iff hop).1 hstores)
      refine .later (fun hstores => hd ((Instr.stores_iff rfl).1 hstores)) ?_
      refine ih (hover.of_cons.2.resolve_left hstores) ?_ hdeclaration
      rwa [Function.update_of_ne (Ne.symm hd)]
  | @drop words i target value kind is js hop hredundant _ _ ih =>
    by_cases hd : target.declaration = d
    · subst hd
      by_cases hkind : kind.isDeclaration = true
      · exact ih hredundant.overwritten (by rw [Function.update_self, Legacy.pass, if_pos hkind]) hkind
      · refine ih hredundant.overwritten ?_ hdeclaration
        rw [Function.update_self, Legacy.pass, if_neg hkind, hword]
    · have hstores : ¬ i.Stores d := fun hstores => hd ((Instr.stores_iff hop).1 hstores)
      refine ih (hover.of_cons.2.resolve_left hstores) ?_ hdeclaration
      rwa [Function.update_of_ne (Ne.symm hd)]

theorem Omits.length_le (h : Omits env unread words is js) : js.length ≤ is.length := by
  induction h with
  | nil => exact Nat.le_refl _
  | keep _ _ ih => exact Nat.succ_le_succ ih
  | store _ _ _ ih => exact Nat.succ_le_succ ih
  | drop _ _ _ _ ih => exact Nat.le_succ_of_le ih

/-- Where nothing goes, nothing changes. -/
theorem Omits.eq_of_length (h : Omits env unread words is js) (hwords : words = fun _ => none)
    (hlength : js.length = is.length) : js = is := by
  induction h with
  | nil => rfl
  | keep _ _ ih => rw [ih hwords (Nat.succ_inj.1 hlength)]
  | @store words i target value kind is js hop _ _ ih =>
    subst hwords
    have hword : Legacy.word (fun _ => none) target.declaration kind = kind := by
      simp [Legacy.word]
    rw [ih (Function.update_eq_self _ _) (Nat.succ_inj.1 hlength), hword, ← hop]
  | drop _ _ _ hrest _ =>
    have hle := hrest.length_le
    rw [List.length_cons] at hlength
    omega

end

namespace Overwriting

/-! ## Taking notice of one instruction -/

variable {env : Environment} {isUnread : Place → Bool} {s s' : Overwriting} {n : Nat} {i : Instr}
  {is : List Instr} {d : DeclId} {e : PendingStore}

/-- All that taking notice of an instruction can do: forget what it touches, note a store, or note a
store and remove the one that waited. -/
inductive Notes (env : Environment) (isUnread : Place → Bool) (s : Overwriting) (n : Nat) (i : Instr)
    (pending : Table DeclId PendingStore) : Overwriting → Prop
  | pass : (∀ d, i.Stores d → env.isCapturedMutable d = true) →
      Notes env isUnread s n i pending { s with pending }
  | store {target value : Place} {kind : StoreKind} : i.op = .storeLocal target value kind →
      env.isCapturedMutable target.declaration = false →
      (∀ earlier, pending.get? target.declaration = some earlier →
        (isUnread earlier.place && isUnread earlier.target) = false) →
      Notes env isUnread s n i pending
        { s with pending := pending.insert target.declaration ⟨n, i.place, target, kind⟩ }
  | replace {target value : Place} {kind word : StoreKind} {earlier : PendingStore}
      {words : Table Nat StoreKind} : i.op = .storeLocal target value kind →
      env.isCapturedMutable target.declaration = false →
      pending.get? target.declaration = some earlier →
      isUnread earlier.place = true → isUnread earlier.target = true →
      (words = s.words.erase earlier.index ∧ word = kind ∧
          (earlier.kind.isDeclaration = true → kind.isDeclaration = true) ∨
        words = (s.words.erase earlier.index).insert n word ∧ word = earlier.kind ∧
          word.isDeclaration = true ∧ kind = .reassign) →
      Notes env isUnread s n i pending
        { pending := pending.insert target.declaration ⟨n, i.place, target, word⟩
          removed := s.removed.add earlier.index
          words }

theorem get?_pending_forget (s : Overwriting) (d d' : DeclId) :
    (s.forget d).pending.get? d' = if d' = d then none else s.pending.get? d' :=
  Table.get?_erase ..

/-- Reads change what is pending only. -/
theorem forget_reads (s : Overwriting) (ps : List Place) :
    ∃ pending : Table DeclId PendingStore,
      ps.foldl (fun s p => s.forget p.declaration) s = { s with pending } ∧
        ∀ d e, pending.get? d = some e ↔ s.pending.get? d = some e ∧ ∀ p ∈ ps, p.declaration ≠ d := by
  induction ps generalizing s with
  | nil => exact ⟨s.pending, rfl, by simp⟩
  | cons p ps ih =>
    obtain ⟨pending, heq, hpending⟩ := ih (s.forget p.declaration)
    refine ⟨pending, heq, fun d e => ?_⟩
    rw [hpending, get?_pending_forget, List.forall_mem_cons]
    by_cases hd : d = p.declaration
    · simp [hd]
    · simp [hd, Ne.symm hd]

theorem noteStore_notes {pending : Table DeclId PendingStore} {target value : Place} {kind : StoreKind}
    (hop : i.op = .storeLocal target value kind)
    (hunseen : env.isCapturedMutable target.declaration = false) :
    Notes env isUnread s n i pending
      (({ s with pending } : Overwriting).noteStore isUnread ⟨n, i.place, target, kind⟩) := by
  rw [noteStore]
  dsimp only
  split
  · next earlier hearlier =>
    split
    · next hunread =>
      obtain ⟨hplace, htarget⟩ := Bool.and_eq_true_iff.1 hunread
      by_cases htakes : (earlier.kind.isDeclaration && kind == .reassign) = true
      · obtain ⟨hword, hkind⟩ := Bool.and_eq_true_iff.1 htakes
        rw [if_pos htakes, if_pos htakes]
        exact .replace hop hunseen hearlier hplace htarget (.inr ⟨rfl, rfl, hword, eq_of_beq hkind⟩)
      · rw [if_neg htakes, if_neg htakes]
        refine .replace hop hunseen hearlier hplace htarget (.inl ⟨rfl, rfl, fun hword => ?_⟩)
        rw [hword, Bool.true_and] at htakes
        simpa [StoreKind.isDeclaration] using htakes
    · next hread =>
      refine .store hop hunseen fun earlier' hearlier' => ?_
      obtain rfl := Option.some.inj (hearlier.symm.trans hearlier')
      exact Bool.eq_false_iff.2 hread
  · next hnone =>
    exact .store hop hunseen fun earlier hearlier => by cases hnone.symm.trans hearlier

theorem notes_note (env : Environment) (isUnread : Place → Bool) (s : Overwriting) (n : Nat) (i : Instr) :
    ∃ pending : Table DeclId PendingStore,
      (∀ d e, pending.get? d = some e ↔ s.pending.get? d = some e ∧ ¬ i.Touches d) ∧
        Notes env isUnread s n i pending (note env isUnread s n i) := by
  obtain ⟨pending, heq, hpending⟩ := s.forget_reads i.reads
  -- one more variable is forgotten
  have hforget {p : Place} (hrebound : i.rebound? = some p) (hstores : ∀ d, ¬ i.Stores d) :
      ∃ pending' : Table DeclId PendingStore,
        (∀ d e, pending'.get? d = some e ↔ s.pending.get? d = some e ∧ ¬ i.Touches d) ∧
          Notes env isUnread s n i pending' (({ s with pending } : Overwriting).forget p.declaration) := by
    refine ⟨_, fun d e => ?_, .pass fun d hd => absurd hd (hstores d)⟩
    rw [Table.get?_erase]
    by_cases hd : d = p.declaration
    · simp [hd, Instr.Touches, hrebound]
    · simp [hd, Ne.symm hd, Instr.Touches, hrebound, hpending]
  rw [note, heq]
  split
  · next target value kind hop =>
    refine ⟨pending, fun d e => ?_, ?_⟩
    · rw [hpending, Instr.touches_iff hop]
      simp [Instr.reads, hop, Op.reads]
    · split
      · next hseen =>
        refine .pass fun d hstores => ?_
        rw [← (Instr.stores_iff hop).1 hstores]
        exact hseen
      · next hunseen => exact noteStore_notes hop (Bool.eq_false_iff.2 hunseen)
  · next hop => exact hforget (by rw [Instr.rebound?, hop]) (by simp [Instr.Stores, hop])
  · next hop => exact hforget (by rw [Instr.rebound?, hop]) (by simp [Instr.Stores, hop])
  · next hop => exact hforget (by rw [Instr.rebound?, hop]) (by simp [Instr.Stores, hop])
  · next hstore hcopy hbinding hdestructure =>
    have hrebound : i.rebound? = none := by
      rw [Instr.rebound?]
      split
      · next hop => exact absurd hop (hcopy _ _)
      · next hop => exact absurd hop (hbinding _)
      · next hop => exact absurd hop (hdestructure _ _ _)
      · rfl
    have hstores (d : DeclId) : ¬ i.Stores d := by
      rintro ⟨target, value, kind, hop, -⟩
      exact hstore target value kind hop
    refine ⟨pending, fun d e => ?_, .pass fun d hd => absurd hd (hstores d)⟩
    simp [hpending, Instr.Touches, hrebound]

/-! ## What has been noted -/

/-- What has been noted in front of an index. -/
structure Upto (env : Environment) (n : Nat) (s : Overwriting) : Prop where
  unseen : ∀ d e, s.pending.get? d = some e → env.isCapturedMutable d = false
  before : ∀ d e, s.pending.get? d = some e → e.index < n
  left : ∀ d e, s.pending.get? d = some e → s.removed.contains e.index = false
  distinct : ∀ d e d' e', s.pending.get? d = some e → s.pending.get? d' = some e' →
    e.index = e'.index → d = d'
  removed : ∀ k, s.removed.contains k = true → k < n
  words : ∀ k kind, s.words.get? k = some kind → k < n

namespace Upto

theorem start (env : Environment) : ({} : Overwriting).Upto env 0 :=
  ⟨nofun, nofun, nofun, nofun, nofun, nofun⟩

theorem not_removed (h : s.Upto env n) : s.removed.contains n = false :=
  Bool.eq_false_iff.2 fun hn => Nat.lt_irrefl n (h.removed n hn)

theorem no_word (h : s.Upto env n) : s.words.get? n = none :=
  Option.eq_none_iff_forall_ne_some.2 fun kind hn => Nat.lt_irrefl n (h.words n kind hn)

theorem succ (h : s.Upto env n) : s.Upto env (n + 1) :=
  ⟨h.unseen, fun d e he => Nat.lt_succ_of_lt (h.before d e he), h.left, h.distinct,
    fun k hk => Nat.lt_succ_of_lt (h.removed k hk),
    fun k kind hk => Nat.lt_succ_of_lt (h.words k kind hk)⟩

/-- Less is pending. -/
theorem forget (h : s.Upto env n) {pending : Table DeclId PendingStore}
    (hpending : ∀ d e, pending.get? d = some e → s.pending.get? d = some e) :
    ({ s with pending } : Overwriting).Upto env n where
  unseen d e he := h.unseen d e (hpending d e he)
  before d e he := h.before d e (hpending d e he)
  left d e he := h.left d e (hpending d e he)
  distinct d e d' e' he he' := h.distinct d e d' e' (hpending d e he) (hpending d' e' he')
  removed := h.removed
  words := h.words

/-- One more store is pending, and only the one that it replaces is removed. -/
theorem insert (h : s.Upto env n) (hunseen : env.isCapturedMutable d = false) (hindex : e.index = n)
    {removed : KeySet Nat} {words : Table Nat StoreKind}
    (hremoved : ∀ k, removed.contains k = true →
      s.removed.contains k = true ∨ ∃ earlier, s.pending.get? d = some earlier ∧ earlier.index = k)
    (hwords : ∀ k kind, words.get? k = some kind → k = n ∨ s.words.get? k = some kind) :
    ({ pending := s.pending.insert d e, removed, words } : Overwriting).Upto env (n + 1) := by
  have hget {d' : DeclId} {e' : PendingStore} (he' : (s.pending.insert d e).get? d' = some e') :
      (d' = d ∧ e'.index = n) ∨ (d' ≠ d ∧ s.pending.get? d' = some e') := by
    rw [Table.get?_insert] at he'
    split at he'
    · next hd =>
      obtain rfl := Option.some.inj he'
      exact .inl ⟨hd, hindex⟩
    · next hd => exact .inr ⟨hd, he'⟩
  refine ⟨fun d' e' he' => ?_, fun d' e' he' => ?_, fun d' e' he' => ?_,
    fun d' e' d'' e'' he' he'' hsame => ?_, fun k hk => ?_, fun k kind hk => ?_⟩
  · rcases hget he' with ⟨rfl, -⟩ | ⟨-, he'⟩
    · exact hunseen
    · exact h.unseen d' e' he'
  · rcases hget he' with ⟨-, hn⟩ | ⟨-, he'⟩
    · exact hn ▸ Nat.lt_succ_self _
    · exact Nat.lt_succ_of_lt (h.before d' e' he')
  · rw [Bool.eq_false_iff]
    intro hk
    rcases hget he' with ⟨-, hn⟩ | ⟨hd, he'⟩
    · rw [hn] at hk
      rcases hremoved n hk with hk | ⟨earlier, hearlier, hk⟩
      · exact Nat.lt_irrefl n (h.removed n hk)
      · exact Nat.ne_of_lt (h.before d earlier hearlier) hk
    · rcases hremoved _ hk with hk | ⟨earlier, hearlier, hk⟩
      · exact Bool.eq_false_iff.1 (h.left d' e' he') hk
      · exact hd (h.distinct d' e' d earlier he' hearlier hk.symm)
  · rcases hget he' with ⟨hd, hn⟩ | ⟨-, he'⟩ <;> rcases hget he'' with ⟨hd', hn'⟩ | ⟨-, he''⟩
    · rw [hd, hd']
    · exact absurd (hsame.symm.trans hn) (Nat.ne_of_lt (h.before d'' e'' he''))
    · exact absurd (hsame.trans hn') (Nat.ne_of_lt (h.before d' e' he'))
    · exact h.distinct d' e' d'' e'' he' he'' hsame
  · rcases hremoved k hk with hk | ⟨earlier, hearlier, rfl⟩
    · exact Nat.lt_succ_of_lt (h.removed k hk)
    · exact Nat.lt_succ_of_lt (h.before d earlier hearlier)
  · rcases hwords k kind hk with rfl | hk
    · exact Nat.lt_succ_self _
    · exact Nat.lt_succ_of_lt (h.words k kind hk)

theorem step (h : s.Upto env n) : (note env isUnread s n i).Upto env (n + 1) := by
  obtain ⟨pending, hpending, hnotes⟩ := notes_note env isUnread s n i
  have hforgotten := h.forget fun d e he => ((hpending d e).1 he).1
  generalize note env isUnread s n i = s' at hnotes ⊢
  cases hnotes with
  | pass _ => exact hforgotten.succ
  | store _ hunseen _ => exact hforgotten.insert hunseen rfl (fun _ => .inl) fun _ _ => .inr
  | replace _ hunseen hearlier _ _ hwords =>
    refine hforgotten.insert hunseen rfl (fun k hk => ?_) fun k kind hk => ?_
    · rw [KeySet.contains_add, Bool.or_eq_true, decide_eq_true_eq] at hk
      exact hk.symm.imp_right fun hk => ⟨_, hearlier, hk.symm⟩
    · rcases hwords with ⟨rfl, -⟩ | ⟨rfl, -⟩
      · rw [Table.get?_erase] at hk
        split at hk
        · cases hk
        · exact .inr hk
      · rw [Table.get?_insert, Table.get?_erase] at hk
        split at hk
        · next hkn => exact .inl hkn
        · split at hk
          · cases hk
          · exact .inr hk

end Upto

/-! ## What becomes of a store that waits -/

/-- No store at the index waits. -/
def Settled (s : Overwriting) (k : Nat) : Prop := ∀ d e, s.pending.get? d = some e → e.index ≠ k

/-- What is noted about an index is the same. -/
structure SameAt (k : Nat) (s s' : Overwriting) : Prop where
  removed : s'.removed.contains k = s.removed.contains k
  words : s'.words.get? k = s.words.get? k

theorem Notes.settled {pending : Table DeclId PendingStore}
    (h : Notes env isUnread s n i pending s') {k : Nat} (hk : k ≠ n)
    (hsettled : ∀ d e, pending.get? d = some e → e.index ≠ k) : s'.Settled k ∧ SameAt k s s' := by
  have hinsert (d : DeclId) (e : PendingStore) (he : e.index = n) (d' : DeclId) (e' : PendingStore)
      (he' : (pending.insert d e).get? d' = some e') : e'.index ≠ k := by
    rw [Table.get?_insert] at he'
    split at he'
    · obtain rfl := Option.some.inj he'
      exact he.trans_ne hk.symm
    · exact hsettled d' e' he'
  cases h with
  | pass _ => exact ⟨hsettled, rfl, rfl⟩
  | store _ _ _ => exact ⟨hinsert _ _ rfl, rfl, rfl⟩
  | replace _ _ hearlier _ _ hwords =>
    have hne : k ≠ _ := (hsettled _ _ hearlier).symm
    refine ⟨hinsert _ _ rfl, by simp [hne], ?_⟩
    rcases hwords with ⟨rfl, -⟩ | ⟨rfl, -⟩
    · simp [Table.get?_erase, hne]
    · simp [Table.get?_insert, Table.get?_erase, hk, hne]

/-- The word that a store has come to carry: its own, or one that it took over. -/
def Carries (s : Overwriting) (n : Nat) (kind word : StoreKind) : Prop :=
  s.words.get? n = none ∧ word = kind ∨ s.words.get? n = some word

theorem Carries.withWord {target value : Place} {kind word : StoreKind} (h : s.Carries n kind word)
    (hop : i.op = .storeLocal target value kind) :
    i.withWord (s.words.get? n) = { i with op := .storeLocal target value word } := by
  rcases h with ⟨hnone, rfl⟩ | hsome
  · rw [hnone, ← hop]
    simp [Instr.withWord]
  · rw [hsome]
    simp [Instr.withWord, hop]

/-- A store waits on, or is overwritten, or is settled because an instruction touches its variable or
overwrites what is read elsewhere. -/
theorem Upto.waits (h : s.Upto env n) (he : s.pending.get? d = some e)
    (hnote : note env isUnread s n i = s') :
    (s'.Settled e.index ∧ SameAt e.index s s' ∧
        (i.Touches d ∨ (isUnread e.place && isUnread e.target) = false)) ∨
      (s'.pending.get? d = some e ∧ SameAt e.index s s' ∧ ¬ i.Touches d ∧ ¬ i.Stores d) ∨
      (s'.removed.contains e.index = true ∧ isUnread e.place = true ∧ isUnread e.target = true ∧
        ¬ i.Touches d ∧ i.Stores d) := by
  obtain ⟨pending, hpending, hnotes⟩ := notes_note env isUnread s n i
  rw [hnote] at hnotes
  have hne : e.index ≠ n := Nat.ne_of_lt (h.before d e he)
  have hother (d' : DeclId) (e' : PendingStore) (he' : pending.get? d' = some e')
      (hd : d' ≠ d) : e'.index ≠ e.index :=
    fun hsame => hd (h.distinct d' e' d e ((hpending d' e').1 he').1 he hsame)
  by_cases htouches : i.Touches d
  · obtain ⟨hsettled, hsame⟩ := hnotes.settled hne fun d' e' he' => hother d' e' he' <| by
      rintro rfl
      exact ((hpending d' e').1 he').2 htouches
    exact .inl ⟨hsettled, hsame, .inl htouches⟩
  have hstays : pending.get? d = some e := (hpending d e).2 ⟨he, htouches⟩
  cases hnotes with
  | pass hseen =>
    refine .inr (.inl ⟨hstays, ⟨rfl, rfl⟩, htouches, fun hstores => ?_⟩)
    exact absurd ((hseen d hstores).symm.trans (h.unseen d e he)) (by simp)
  | @store target value kind hop _ hread =>
    by_cases hd : target.declaration = d
    · refine .inl ⟨fun d' e' he' => ?_, ⟨rfl, rfl⟩, .inr (hread e (hd ▸ hstays))⟩
      rw [Table.get?_insert] at he'
      split at he'
      · obtain rfl := Option.some.inj he'
        exact hne.symm
      · next hd' => exact hother d' e' he' (hd ▸ hd')
    · refine .inr (.inl ⟨?_, ⟨rfl, rfl⟩, htouches, fun hstores => hd ?_⟩)
      · rwa [Table.get?_insert, if_neg (Ne.symm hd)]
      · exact (Instr.stores_iff hop).1 hstores
  | @replace target value kind word earlier words hop _ hearlier hplace htarget hwords =>
    by_cases hd : target.declaration = d
    · subst hd
      obtain rfl := Option.some.inj (hstays.symm.trans hearlier)
      exact .inr (.inr ⟨by simp, hplace, htarget, htouches, target, value, kind, hop, rfl⟩)
    · have hindex : e.index ≠ earlier.index := (hother _ _ hearlier hd).symm
      refine .inr (.inl ⟨?_, ⟨by simp [hindex], ?_⟩, htouches, fun hstores => hd ?_⟩)
      · rwa [Table.get?_insert, if_neg (Ne.symm hd)]
      · rcases hwords with ⟨rfl, -⟩ | ⟨rfl, -⟩
        · simp [Table.get?_erase, hindex]
        · simp [Table.get?_insert, Table.get?_erase, hindex, hne]
      · exact (Instr.stores_iff hop).1 hstores

/-- What waits was there before, unless it is the store that is taken notice of. -/
theorem get?_pending_note (hnot : i.Stores d → env.isCapturedMutable d = true)
    (he : (note env isUnread s n i).pending.get? d = some e) : s.pending.get? d = some e := by
  obtain ⟨pending, hpending, hnotes⟩ := notes_note env isUnread s n i
  generalize note env isUnread s n i = s' at hnotes he
  have hother {target value : Place} {kind : StoreKind} (hop : i.op = .storeLocal target value kind)
      (hunseen : env.isCapturedMutable target.declaration = false) {new : PendingStore}
      (he : (pending.insert target.declaration new).get? d = some e) : pending.get? d = some e := by
    rw [Table.get?_insert] at he
    split at he
    · next hd =>
      subst hd
      have hseen := hnot ((Instr.stores_iff hop).2 rfl)
      exact absurd (hseen.symm.trans hunseen) (by simp)
    · exact he
  cases hnotes with
  | pass _ => exact ((hpending d e).1 he).1
  | store hop hunseen _ => exact ((hpending d e).1 (hother hop hunseen he)).1
  | replace hop hunseen => exact ((hpending d e).1 (hother hop hunseen he)).1

/-! ## A whole block -/

/-- Takes notice of the instructions from an index on. -/
def noteAll (env : Environment) (isUnread : Place → Bool) (s : Overwriting) (n : Nat) (is : List Instr) :
    Overwriting :=
  (is.zipIdx n).foldl (fun s e => note env isUnread s e.2 e.1) s

/-- What is left of the instructions from an index on. -/
def remaining (s : Overwriting) (n : Nat) (is : List Instr) : List Instr :=
  (is.zipIdx n).filterMap fun e =>
    if s.removed.contains e.2 then none else some (e.1.withWord (s.words.get? e.2))

theorem noteAll_cons : s.noteAll env isUnread n (i :: is) =
    (note env isUnread s n i).noteAll env isUnread (n + 1) is := rfl

theorem remaining_cons : s.remaining n (i :: is) =
    (if s.removed.contains n then [] else [i.withWord (s.words.get? n)]) ++ s.remaining (n + 1) is := by
  rw [remaining, List.zipIdx_cons, List.filterMap_cons]
  split <;> simp_all [remaining]

theorem length_remaining (h : s.removed.isEmpty = true) : (s.remaining n is).length = is.length := by
  induction is generalizing n with
  | nil => rfl
  | cons i is ih =>
    have hleft : s.removed.contains n = false := by
      rw [Bool.eq_false_iff]
      intro hn
      exact absurd (Table.isEmpty_eq_false.2 ⟨n, hn⟩) (by simp [h])
    rw [remaining_cons, hleft, if_neg (by simp), List.length_append, ih, List.length_singleton,
      List.length_cons, Nat.add_comm]

/-- What is settled stays as it is. -/
theorem Settled.noteAll {k : Nat} (h : s.Settled k) (hk : k < n)
    (hall : s.noteAll env isUnread n is = s') : SameAt k s s' := by
  induction is generalizing s n with
  | nil =>
    obtain rfl := hall
    exact ⟨rfl, rfl⟩
  | cons i is ih =>
    obtain ⟨pending, hpending, hnotes⟩ := notes_note env isUnread s n i
    obtain ⟨hsettled, hsame⟩ := hnotes.settled (Nat.ne_of_lt hk)
      fun d e he => h d e ((hpending d e).1 he).1
    have hrest := ih hsettled (Nat.lt_succ_of_lt hk) hall
    exact ⟨hrest.removed.trans hsame.removed, hrest.words.trans hsame.words⟩

/-- What is removed stays so. -/
theorem contains_noteAll {k : Nat} (h : s.removed.contains k = true)
    (hall : s.noteAll env isUnread n is = s') : s'.removed.contains k = true := by
  induction is generalizing s n with
  | nil => exact hall ▸ h
  | cons i is ih =>
    rw [noteAll_cons] at hall
    obtain ⟨pending, -, hnotes⟩ := notes_note env isUnread s n i
    generalize note env isUnread s n i = t at hnotes hall
    refine ih ?_ hall
    cases hnotes with
    | pass _ => exact h
    | store _ _ _ => exact h
    | replace => simp [h]

/-- A store that waits goes if it is overwritten and nothing reads what it defines; else it is left. -/
theorem Upto.noteAll_pending (h : s.Upto env n) (he : s.pending.get? d = some e)
    (hall : s.noteAll env isUnread n is = s') :
    (SameAt e.index s s' ∧
        ¬ (isUnread e.place = true ∧ isUnread e.target = true ∧ Overwritten d is)) ∨
      (s'.removed.contains e.index = true ∧ isUnread e.place = true ∧ isUnread e.target = true ∧
        Overwritten d is) := by
  induction is generalizing s n e with
  | nil =>
    obtain rfl := hall
    exact .inl ⟨⟨rfl, rfl⟩, fun hover => by cases hover.2.2⟩
  | cons i is ih =>
    rw [noteAll_cons] at hall
    generalize hnote : note env isUnread s n i = t at hall
    have ht : t.Upto env (n + 1) := hnote ▸ h.step
    rcases h.waits he hnote with ⟨hsettled, hsame, hwhy⟩ | ⟨hwaits, hsame, htouches, hstores⟩ |
      ⟨hremoved, hplace, htarget, htouches, hstores⟩
    · have hrest := hsettled.noteAll (Nat.lt_succ_of_lt (h.before d e he)) hall
      refine .inl ⟨⟨hrest.removed.trans hsame.removed, hrest.words.trans hsame.words⟩, ?_⟩
      rintro ⟨hplace, htarget, hover⟩
      rcases hwhy with htouches | hread
      · exact hover.of_cons.1 htouches
      · simp [hplace, htarget] at hread
    · refine (ih ht hwaits hall).imp ?_ ?_
      · rintro ⟨hrest, hnot⟩
        refine ⟨⟨hrest.removed.trans hsame.removed, hrest.words.trans hsame.words⟩, ?_⟩
        rintro ⟨hplace, htarget, hover⟩
        exact hnot ⟨hplace, htarget, hover.of_cons.2.resolve_left hstores⟩
      · rintro ⟨hremoved, hplace, htarget, hover⟩
        exact ⟨hremoved, hplace, htarget, .later htouches hover⟩
    · exact .inr ⟨contains_noteAll hremoved hall, hplace, htarget, .here hstores htouches⟩

/-- The words that stores which go in the end have left by now. -/
def legacy (s final : Overwriting) : Legacy := fun d =>
  (s.pending.get? d).bind fun e =>
    if final.removed.contains e.index && e.kind.isDeclaration then some e.kind else none

theorem legacy_of_left (he : s.pending.get? d = some e) (hleft : s'.removed.contains e.index = false) :
    s.legacy s' d = none := by
  simp [legacy, he, hleft]

theorem legacy_of_removed (he : s.pending.get? d = some e)
    (hremoved : s'.removed.contains e.index = true) :
    s.legacy s' d = if e.kind.isDeclaration then some e.kind else none := by
  simp [legacy, he, hremoved]

/-- Only declaring words are left, and only to variables that no other function sees. -/
theorem Upto.legacy_eq_some (h : s.Upto env n) {word : StoreKind} (hword : s.legacy s' d = some word) :
    word.isDeclaration = true ∧ env.isCapturedMutable d = false := by
  obtain ⟨e, he, hsome⟩ := Option.bind_eq_some_iff.1 hword
  split at hsome
  · next hboth =>
    obtain rfl := Option.some.inj hsome
    exact ⟨(Bool.and_eq_true_iff.1 hboth).2, h.unseen d e he⟩
  · cases hsome

/-- An instruction that is no store of the variable leaves its words alone. -/
theorem Upto.legacy_note (h : s.Upto env n) {final : Overwriting} (hnote : note env isUnread s n i = s')
    (hall : s'.noteAll env isUnread (n + 1) is = final)
    (hnot : i.Stores d → env.isCapturedMutable d = true) : s'.legacy final d = s.legacy final d := by
  have hbefore (e : PendingStore) (he : s'.pending.get? d = some e) : s.pending.get? d = some e :=
    get?_pending_note hnot (hnote ▸ he)
  cases he : s.pending.get? d with
  | none =>
    have hnone : s'.pending.get? d = none := by
      rw [Option.eq_none_iff_forall_ne_some]
      intro e he'
      cases he.symm.trans (hbefore e he')
    rw [legacy, legacy, he, hnone]
  | some e =>
    rcases h.waits he hnote with ⟨hsettled, hsame, -⟩ | ⟨hwaits, -⟩ | ⟨-, -, -, -, hstores⟩
    · have hrest := hsettled.noteAll (Nat.lt_succ_of_lt (h.before d e he)) hall
      have hleft : final.removed.contains e.index = false :=
        (hrest.removed.trans hsame.removed).trans (h.left d e he)
      have hnone : s'.pending.get? d = none := by
        rw [Option.eq_none_iff_forall_ne_some]
        intro e' he'
        obtain rfl := Option.some.inj (he.symm.trans (hbefore e' he'))
        exact hsettled d e he' rfl
      rw [legacy_of_left he hleft, legacy, hnone, Option.bind_none]
    · rw [legacy, legacy, he, hwaits]
    · exact absurd ((hnot hstores).symm.trans (h.unseen d e he)) (by simp)

/-- A store waits from then on, with the word that it is left with if it is left. -/
theorem Upto.waits_note (h : s.Upto env n) {final : Overwriting} (hnote : note env isUnread s n i = s')
    (hall : s'.noteAll env isUnread (n + 1) is = final) {target value : Place} {kind : StoreKind}
    (hop : i.op = .storeLocal target value kind)
    (hunseen : env.isCapturedMutable target.declaration = false) :
    s'.pending.get? target.declaration =
        some ⟨n, i.place, target, (s.legacy final).word target.declaration kind⟩ ∧
      s'.Carries n kind ((s.legacy final).word target.declaration kind) := by
  obtain ⟨pending, hpending, hnotes⟩ := notes_note env isUnread s n i
  rw [hnote] at hnotes
  cases hnotes with
  | pass hseen => exact absurd ((hseen _ ⟨_, _, _, hop, rfl⟩).symm.trans hunseen) (by simp)
  | store hop' _ _ =>
    cases hop.symm.trans hop'
    have hnone : s.legacy final target.declaration = none := by
      cases he : s.pending.get? target.declaration with
      | none => rw [legacy, he, Option.bind_none]
      | some e =>
        rcases h.waits he hnote with ⟨hsettled, hsame, -⟩ | ⟨-, -, -, hstores⟩ | ⟨hremoved, -⟩
        · have hrest := hsettled.noteAll (Nat.lt_succ_of_lt (h.before _ e he)) hall
          exact legacy_of_left he ((hrest.removed.trans hsame.removed).trans (h.left _ e he))
        · exact absurd ⟨_, _, _, hop, rfl⟩ hstores
        · exact absurd (hremoved.symm.trans (h.left _ e he)) (by simp)
    have hword : (s.legacy final).word target.declaration kind = kind := by
      simp [Legacy.word, hnone]
    rw [hword]
    exact ⟨by simp, .inl ⟨h.no_word, rfl⟩⟩
  | replace hop' _ hearlier _ _ hwords =>
    cases hop.symm.trans hop'
    have hlegacy := legacy_of_removed ((hpending _ _).1 hearlier).1 (contains_noteAll (by simp) hall)
    rcases hwords with ⟨rfl, hown, hkind⟩ | ⟨rfl, htaken, hdeclaration, rfl⟩
    · have hword : (s.legacy final).word target.declaration kind = kind := by
        rw [Legacy.word, hlegacy]
        split
        · rfl
        · next hreassign => rw [if_neg fun hearlier => hreassign (hkind hearlier), Option.getD_none]
      rw [hword, hown]
      exact ⟨by simp, .inl ⟨by simp [Table.get?_erase, h.no_word], rfl⟩⟩
    · rw [← htaken, if_pos hdeclaration] at hlegacy
      rw [Legacy.word, hlegacy, if_neg (by decide), Option.getD_some]
      exact ⟨by simp, .inr (by simp)⟩

/-- An instruction that is no store that could go is left as it is. -/
theorem Upto.settled_note (h : s.Upto env n) {final : Overwriting}
    (hnote : note env isUnread s n i = s') (hall : s'.noteAll env isUnread (n + 1) is = final)
    (hnot : ∀ d, i.Stores d → env.isCapturedMutable d = true) :
    final.removed.contains n = false ∧ final.words.get? n = none := by
  have hsettled : s'.Settled n := fun d e he =>
    Nat.ne_of_lt (h.before d e (get?_pending_note (hnot d) (hnote ▸ he)))
  have hsame := hsettled.noteAll (Nat.lt_succ_self n) hall
  obtain ⟨pending, -, hnotes⟩ := notes_note env isUnread s n i
  rw [hnote] at hnotes
  rw [hsame.removed, hsame.words]
  cases hnotes with
  | pass _ => exact ⟨h.not_removed, h.no_word⟩
  | store hop hunseen _ =>
    exact absurd ((hnot _ ⟨_, _, _, hop, rfl⟩).symm.trans hunseen) (by simp)
  | replace hop hunseen =>
    exact absurd ((hnot _ ⟨_, _, _, hop, rfl⟩).symm.trans hunseen) (by simp)

/-- What a store leaves if it goes is the word that it would have been left with. -/
theorem Upto.pass_legacy (h : s.Upto env n) (d : DeclId) (kind : StoreKind) :
    (s.legacy s').pass d kind = if ((s.legacy s').word d kind).isDeclaration then
      some ((s.legacy s').word d kind) else none := by
  rw [Legacy.word, Legacy.pass]
  by_cases hkind : kind.isDeclaration = true
  · simp [hkind]
  · cases hword : s.legacy s' d with
    | none => simp [hkind]
    | some word => simp [hkind, (h.legacy_eq_some hword).1]

/-- A store goes if it is redundant, else it is left with its word. -/
theorem Upto.omits_store (h : s.Upto env n) {final : Overwriting} (hnote : note env isUnread s n i = s')
    (hall : s'.noteAll env isUnread (n + 1) is = final) {target value : Place} {kind : StoreKind}
    (hop : i.op = .storeLocal target value kind)
    (hunseen : env.isCapturedMutable target.declaration = false)
    (hrest : Omits env (isUnread · = true) (s'.legacy final) is (final.remaining (n + 1) is)) :
    Omits env (isUnread · = true) (s.legacy final) (i :: is) (final.remaining n (i :: is)) := by
  have hnext : s'.Upto env (n + 1) := hnote ▸ h.step
  have hlegacy : s'.legacy final = Function.update (s.legacy final) target.declaration
      (s'.legacy final target.declaration) := by
    funext d
    by_cases hd : d = target.declaration
    · rw [hd, Function.update_self]
    · rw [Function.update_of_ne hd]
      exact h.legacy_note hnote hall fun hstores =>
        absurd ((Instr.stores_iff hop).1 hstores).symm hd
  rw [hlegacy] at hrest
  obtain ⟨hwaits, hcarries⟩ := h.waits_note hnote hall hop hunseen
  rw [remaining_cons]
  rcases hnext.noteAll_pending hwaits hall with ⟨hsame, hnot⟩ | ⟨hremoved, hplace, htarget, hover⟩
  · have hleft : final.removed.contains n = false := hsame.removed.trans (hnext.left _ _ hwaits)
    have hwords : final.words.get? n = s'.words.get? n := hsame.words
    rw [hleft, hwords, hcarries.withWord hop, if_neg (by simp)]
    rw [legacy_of_left hwaits hleft] at hrest
    refine .store hop (fun hredundant => hnot ?_) hrest
    exact ⟨hredundant.unread_place, hredundant.unread_target, hredundant.overwritten⟩
  · rw [if_pos hremoved]
    rw [legacy_of_removed hwaits hremoved, ← h.pass_legacy] at hrest
    refine .drop hop ⟨hplace, htarget, hunseen, hover⟩ (fun hkind => ?_) hrest
    refine hrest.declares hover hunseen ?_ hkind
    rw [Function.update_self, Legacy.pass, if_pos hkind]

/-- Exactly the redundant stores go. -/
theorem Upto.omits (h : s.Upto env n) {final : Overwriting}
    (hall : s.noteAll env isUnread n is = final) :
    Omits env (isUnread · = true) (s.legacy final) is (final.remaining n is) := by
  induction is generalizing s n with
  | nil => exact .nil
  | cons i is ih =>
    rw [noteAll_cons] at hall
    generalize hnote : note env isUnread s n i = t at hall
    have hrest := ih (hnote ▸ h.step) hall
    by_cases hnoted : ∃ target value kind, i.op = .storeLocal target value kind ∧
      env.isCapturedMutable target.declaration = false
    · obtain ⟨target, value, kind, hop, hunseen⟩ := hnoted
      exact h.omits_store hnote hall hop hunseen hrest
    · have hnot (d : DeclId) (hstores : i.Stores d) : env.isCapturedMutable d = true := by
        obtain ⟨target, value, kind, hop, rfl⟩ := hstores
        rw [← Bool.not_eq_false]
        exact fun hunseen => hnoted ⟨target, value, kind, hop, hunseen⟩
      have hsame : t.legacy final = s.legacy final :=
        funext fun d => h.legacy_note hnote hall (hnot d)
      obtain ⟨hleft, hword⟩ := h.settled_note hnote hall hnot
      rw [remaining_cons, hleft, hword, if_neg (by simp)]
      exact .keep hnot (hsame ▸ hrest)

end Overwriting

/-- Removing the overwritten stores of a block. -/
theorem omits_dropOverwritten (env : Environment) (isUnread : Place → Bool) (is : List Instr) :
    Omits env (isUnread · = true) (fun _ => none) is (dropOverwritten env isUnread is).2 := by
  have homits : Omits env (isUnread · = true) (fun _ => none) is _ :=
    (Overwriting.Upto.start env).omits rfl
  rw [dropOverwritten]
  dsimp only
  split
  · next hnone =>
    rwa [homits.eq_of_length rfl (Overwriting.length_remaining hnone)] at homits
  · exact homits

end Whittle.Ir
