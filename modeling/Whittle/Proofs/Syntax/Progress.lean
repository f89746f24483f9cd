import Mathlib.Order.Nat
import Mathlib.Tactic.Common
import Whittle.Syntax.Parse

/-!
# Parsers go on

A parser that succeeds gives no token back, and a production takes at least one.  So there are fewer rounds of
every loop, and fewer calls of one production by itself, than tokens to go, and the bounds that parsers carry
are never reached: whatever stops a parser is in the text.

How far a production may call itself shrinks with every token.  `Advances input k p` says what `p` does where
fewer than `k` tokens are left; behind a token, rules of one level less will do.

Main statement: `Parser.advances_productions`.
-/

namespace Whittle.Syntax

/-! ## Cursors -/

namespace Input

variable {input : Input} {c c' c'' : Cursor} {k : Nat}

/-- The tokens from the cursor on. -/
def left (input : Input) (c : Cursor) : Nat := input.tokens.size - c.position

/-- The second cursor stands further on, behind a token that there is. -/
def Further (input : Input) (c c' : Cursor) : Prop := c.position < c'.position ∧ c'.position ≤ input.tokens.size

/-- The second cursor stands where the first one does, or further on. -/
def Onward (input : Input) (c c' : Cursor) : Prop := c'.position = c.position ∨ input.Further c c'

theorem Onward.trans (h : input.Onward c c') (h' : input.Onward c' c'') : input.Onward c c'' := by
  simp only [Onward, Further] at h h' ⊢
  omega

theorem Onward.trans_further (h : input.Onward c c') (h' : input.Further c' c'') : input.Further c c'' := by
  simp only [Onward, Further] at h h' ⊢
  omega

theorem Further.trans_onward (h : input.Further c c') (h' : input.Onward c' c'') : input.Further c c'' := by
  simp only [Onward, Further] at h h' ⊢
  omega

theorem Onward.left_lt (h : input.Onward c c') (hleft : input.left c < k) : input.left c' < k := by
  simp only [Onward, Further, left] at h hleft ⊢
  omega

/-- Behind a token fewer are left. -/
theorem Further.left_lt (h : input.Further c c') (hleft : input.left c < k) : input.left c' < k - 1 := by
  simp only [Further, left] at h hleft ⊢
  omega

end Input

namespace Parser

variable {α β : Type} {input : Input} {k m : Nat}

/-! ## Kinds of parsers -/

/-- A value of the parser, with the cursor behind it, is as wanted.  An error is due to the text, at least where
fewer tokens are left than the number says. -/
def Ends (input : Input) (k : Nat) (p : Parser α) (c : Cursor) (Q : α → Cursor → Prop) : Prop :=
  match p input c with
  | .ok a c' => Q a c'
  | .error e _ => input.left c < k → e.isUserError = true

namespace Ends

variable {p : Parser α} {f : α → Parser β} {c : Cursor} {Q Q' : α → Cursor → Prop} {R : β → Cursor → Prop}

theorem bind (hp : Ends input k p c Q) (level : α → Nat)
    (hleft : ∀ a c', Q a c' → input.left c < k → input.left c' < level a)
    (hf : ∀ a c', Q a c' → Ends input (level a) (f a) c' R) : Ends input k (p >>= f) c R := by
  simp only [Ends, Bind.bind, ReaderT.bind, EStateM.bind] at hp hf ⊢
  cases hrun : p input c with
  | error e c' =>
    rw [hrun] at hp
    exact hp
  | ok a c' =>
    rw [hrun] at hp
    have hrest := hf a c' hp
    dsimp only
    cases hrun' : f a input c' with
    | ok b c'' =>
      rw [hrun'] at hrest
      exact hrest
    | error e c'' =>
      rw [hrun'] at hrest
      exact fun h => hrest (hleft a c' hp h)

theorem of_left (h : Ends input k p c Q) (hleft : input.left c < m → input.left c < k) : Ends input m p c Q := by
  rw [Ends] at h ⊢
  cases hrun : p input c with
  | ok a c' =>
    rw [hrun] at h
    exact h
  | error e c' =>
    rw [hrun] at h
    exact fun hm => h (hleft hm)

theorem imp (h : Ends input k p c Q) (hQ : ∀ a c', Q a c' → Q' a c') : Ends input k p c Q' := by
  rw [Ends] at h ⊢
  cases hrun : p input c with
  | ok a c' =>
    rw [hrun] at h
    exact hQ a c' h
  | error e c' =>
    rw [hrun] at h
    exact h

end Ends

/-- The parser gives no token back. -/
class Proceeds (input : Input) (k : Nat) (p : Parser α) : Prop where
  ends : ∀ c, Ends input k p c fun _ c' => input.Onward c c'

/-- The parser takes a token. -/
class Advances (input : Input) (k : Nat) (p : Parser α) : Prop where
  ends : ∀ c, Ends input k p c fun _ c' => input.Further c c'

/-- The parser takes a token where one stands. -/
class AdvancesAt (input : Input) (k : Nat) (p : Parser α) : Prop where
  ends : ∀ c, c.position < input.tokens.size → Ends input k p c fun _ c' => input.Further c c'

/-- The parser takes a token whenever it gives a value of a kind. -/
class Marks (input : Input) (k : Nat) (good : α → Prop) (p : Parser α) : Prop where
  ends : ∀ c, Ends input k p c fun a c' => input.Onward c c' ∧ (good a → input.Further c c')

/-- The parser only looks, and says yes only where a token stands. -/
class Looks (input : Input) (p : Parser Bool) : Prop where
  looks : ∀ c, ∃ b, p input c = .ok b c ∧ (b = true → c.position < input.tokens.size)

section Rules

variable {p q : Parser α} {f : α → Parser β} {good : α → Prop}

theorem Proceeds.mono (h : Proceeds input k p) (hm : m ≤ k) : Proceeds input m p :=
  ⟨fun c => (h.ends c).of_left fun h => h.trans_le hm⟩

theorem Advances.mono (h : Advances input k p) (hm : m ≤ k) : Advances input m p :=
  ⟨fun c => (h.ends c).of_left fun h => h.trans_le hm⟩

theorem Marks.mono (h : Marks input k good p) (hm : m ≤ k) : Marks input m good p :=
  ⟨fun c => (h.ends c).of_left fun h => h.trans_le hm⟩

theorem Advances.proceeds (h : Advances input k p) : Proceeds input k p :=
  ⟨fun c => (h.ends c).imp fun _ _ => .inr⟩

instance [h : Advances input k p] : Proceeds input k p := h.proceeds

instance Proceeds.of_advances_succ [h : Advances input (k + 1) p] : Proceeds input k p :=
  ⟨fun c => ((h.ends c).of_left fun h => h.trans (Nat.lt_succ_self k)).imp fun _ _ => .inr⟩

instance AdvancesAt.of_advances [h : Advances input k p] : AdvancesAt input k p :=
  ⟨fun c _ => h.ends c⟩

instance Marks.of_advances [h : Advances input k p] : Marks input k good p :=
  ⟨fun c => (h.ends c).imp fun _ _ hfurther => ⟨.inr hfurther, fun _ => hfurther⟩⟩

instance Proceeds.of_looks {p : Parser Bool} [h : Looks input p] : Proceeds input k p := by
  refine ⟨fun c => ?_⟩
  obtain ⟨b, hb, -⟩ := h.looks c
  rw [Ends, hb]
  exact .inl rfl

/-! One parser after the other. -/

theorem Proceeds.andThen (hp : Proceeds input k p) (hf : ∀ a, Proceeds input k (f a)) : Proceeds input k (p >>= f) :=
  ⟨fun c => (hp.ends c).bind (fun _ => k) (fun _ _ => Input.Onward.left_lt)
    fun a c' h => ((hf a).ends c').imp fun _ _ => h.trans⟩

/-- Behind a token a level less will do. -/
theorem Advances.andThen (hp : Advances input k p) (hf : ∀ a, Proceeds input (k - 1) (f a)) :
    Advances input k (p >>= f) :=
  ⟨fun c => (hp.ends c).bind (fun _ => k - 1) (fun _ _ => Input.Further.left_lt)
    fun a c' h => ((hf a).ends c').imp fun _ _ => h.trans_onward⟩

theorem Advances.andThen_succ (hp : Advances input (k + 1) p) (hf : ∀ a, Proceeds input k (f a)) :
    Advances input (k + 1) (p >>= f) :=
  hp.andThen hf

theorem AdvancesAt.andThen (hp : AdvancesAt input k p) (hf : ∀ a, Proceeds input (k - 1) (f a)) :
    AdvancesAt input k (p >>= f) :=
  ⟨fun c hc => (hp.ends c hc).bind (fun _ => k - 1) (fun _ _ => Input.Further.left_lt)
    fun a c' h => ((hf a).ends c').imp fun _ _ => h.trans_onward⟩

theorem Proceeds.andThen_advances (hp : Proceeds input k p) (hf : ∀ a, Advances input k (f a)) :
    Advances input k (p >>= f) :=
  ⟨fun c => (hp.ends c).bind (fun _ => k) (fun _ _ => Input.Onward.left_lt)
    fun a c' h => ((hf a).ends c').imp fun _ _ => h.trans_further⟩

theorem Proceeds.andThen_marks {good : β → Prop} (hp : Proceeds input k p) (hf : ∀ a, Marks input k good (f a)) :
    Marks input k good (p >>= f) :=
  ⟨fun c => (hp.ends c).bind (fun _ => k) (fun _ _ => Input.Onward.left_lt)
    fun a c' h => ((hf a).ends c').imp fun _ _ h' => ⟨h.trans h'.1, fun hgood => h.trans_further (h'.2 hgood)⟩⟩

instance [hp : Proceeds input k p] [hf : ∀ a, Proceeds input k (f a)] : Proceeds input k (p >>= f) :=
  hp.andThen hf

instance [hp : Advances input k p] [hf : ∀ a, Proceeds input k (f a)] : Advances input k (p >>= f) :=
  hp.andThen fun a => (hf a).mono (Nat.sub_le k 1)

instance (priority := high) [hp : Advances input (k + 1) p] [hf : ∀ a, Proceeds input k (f a)] :
    Advances input (k + 1) (p >>= f) :=
  hp.andThen_succ hf

instance [hp : Proceeds input k p] [hf : ∀ a, Advances input k (f a)] : Advances input k (p >>= f) :=
  hp.andThen_advances hf

instance [hp : AdvancesAt input k p] [hf : ∀ a, Proceeds input k (f a)] : AdvancesAt input k (p >>= f) :=
  hp.andThen fun a => (hf a).mono (Nat.sub_le k 1)

instance (priority := high) [hp : AdvancesAt input (k + 1) p] [hf : ∀ a, Proceeds input k (f a)] :
    AdvancesAt input (k + 1) (p >>= f) :=
  hp.andThen hf

instance {good : β → Prop} [hp : Proceeds input k p] [hf : ∀ a, Marks input k good (f a)] :
    Marks input k good (p >>= f) :=
  hp.andThen_marks hf

/-! Both ways of a choice. -/

section Choice

variable {b : Prop} [Decidable b]

theorem Proceeds.either (hp : Proceeds input k p) (hq : Proceeds input k q) :
    Proceeds input k (if b then p else q) := by
  split
  · exact hp
  · exact hq

instance Proceeds.ite [hp : Proceeds input k p] [hq : Proceeds input k q] :
    Proceeds input k (if b then p else q) :=
  hp.either hq

instance Advances.ite [hp : Advances input k p] [hq : Advances input k q] :
    Advances input k (if b then p else q) := by
  split
  · exact hp
  · exact hq

instance AdvancesAt.ite [hp : AdvancesAt input k p] [hq : AdvancesAt input k q] :
    AdvancesAt input k (if b then p else q) := by
  split
  · exact hp
  · exact hq

instance Marks.ite [hp : Marks input k good p] [hq : Marks input k good q] :
    Marks input k good (if b then p else q) := by
  split
  · exact hp
  · exact hq

end Choice

/-! Where it shows whether a token stands or has been taken. -/

/-- A value of the kind stands for a token that was taken. -/
theorem Marks.andThen {good : α → Prop} (hp : Marks input k good p)
    (hgood : ∀ a, good a → Proceeds input (k - 1) (f a)) (hbad : ∀ a, ¬ good a → Proceeds input k (f a)) :
    Proceeds input k (p >>= f) := by
  classical
  refine ⟨fun c => (hp.ends c).bind (fun a => if good a then k - 1 else k) (fun a c' h hleft => ?_)
    fun a c' h => ?_⟩
  · split
    · next hg => exact (h.2 hg).left_lt hleft
    · exact h.1.left_lt hleft
  · split
    · next hg => exact ((hgood a hg).ends c').imp fun _ _ => h.1.trans
    · next hb => exact ((hbad a hb).ends c').imp fun _ _ => h.1.trans

theorem Marks.andThen_advances {good : α → Prop} (hp : Marks input k good p)
    (hgood : ∀ a, good a → Proceeds input (k - 1) (f a)) (hbad : ∀ a, ¬ good a → Advances input k (f a)) :
    Advances input k (p >>= f) := by
  classical
  refine ⟨fun c => (hp.ends c).bind (fun a => if good a then k - 1 else k) (fun a c' h hleft => ?_)
    fun a c' h => ?_⟩
  · split
    · next hg => exact (h.2 hg).left_lt hleft
    · exact h.1.left_lt hleft
  · split
    · next hg => exact ((hgood a hg).ends c').imp fun _ _ => (h.2 hg).trans_onward
    · next hb => exact ((hbad a hb).ends c').imp fun _ _ => h.1.trans_further

theorem Marks.andThen_marks {good : α → Prop} {good' : β → Prop} (hp : Marks input k good p)
    (hgood : ∀ a, good a → Proceeds input k (f a)) (hbad : ∀ a, ¬ good a → Marks input k good' (f a)) :
    Marks input k good' (p >>= f) := by
  refine ⟨fun c => (hp.ends c).bind (fun _ => k) (fun _ _ h => h.1.left_lt) fun a c' h => ?_⟩
  by_cases hg : good a
  · refine ((hgood a hg).ends c').imp fun _ _ h' => ?_
    exact ⟨h.1.trans h', fun _ => (h.2 hg).trans_onward h'⟩
  · exact ((hbad a hg).ends c').imp fun _ _ h' => ⟨h.1.trans h'.1, fun hgood' => h.1.trans_further (h'.2 hgood')⟩

theorem ends_peekAt {n : Nat} {f : Option Token → Parser β} {c : Cursor} {Q : β → Cursor → Prop}
    (h : Ends input k (f input.tokens[c.position + n]?) c Q) : Ends input k (peekAt n >>= f) c Q :=
  h

theorem advances_peek {f : Option Token → Parser β} (hnone : Advances input k (f none))
    (hsome : ∀ t, AdvancesAt input k (f (some t))) : Advances input k (peek >>= f) := by
  refine ⟨fun c => ?_⟩
  have hrun : (peek >>= f) input c = f input.tokens[c.position]? input c := rfl
  rw [Ends, hrun]
  cases htoken : input.tokens[c.position]? with
  | none => exact hnone.ends c
  | some t => exact (hsome t).ends c (Array.getElem?_eq_some_iff.1 htoken).1

theorem advances_peekKind {f : Option TokenKind → Parser β} (hnone : Advances input k (f none))
    (hsome : ∀ kind, AdvancesAt input k (f (some kind))) : Advances input k (peekKind >>= f) := by
  refine ⟨fun c => ?_⟩
  have hrun : (peekKind >>= f) input c = f (input.tokens[c.position]?.map (·.kind)) input c := rfl
  rw [Ends, hrun]
  cases htoken : input.tokens[c.position]? with
  | none => exact hnone.ends c
  | some t => exact (hsome t.kind).ends c (Array.getElem?_eq_some_iff.1 htoken).1

theorem ends_looks {look : Parser Bool} [hlook : Looks input look] {f : Bool → Parser β} {c : Cursor}
    {Q : β → Cursor → Prop}
    (h : ∀ b, (b = true → c.position < input.tokens.size) → Ends input k (f b) c Q) :
    Ends input k (look >>= f) c Q := by
  obtain ⟨b, hb, htoken⟩ := hlook.looks c
  have hrun : (look >>= f) input c = f b input c := by
    simp only [Bind.bind, ReaderT.bind, EStateM.bind, hb]
  rw [Ends, hrun]
  exact h b htoken

instance Advances.bind_looks {look : Parser Bool} [Looks input look] [hp : AdvancesAt input k p]
    [hq : Advances input k q] : Advances input k (look >>= fun b => if b = true then p else q) := by
  refine ⟨fun c => ends_looks fun b htoken => ?_⟩
  cases b with
  | true => exact hp.ends c (htoken rfl)
  | false => exact hq.ends c

instance Marks.bind_looks {good : α → Prop} {look : Parser Bool} [Looks input look] [hp : AdvancesAt input k p]
    [hq : Marks input k good q] : Marks input k good (look >>= fun b => if b = true then p else q) := by
  refine ⟨fun c => ends_looks fun b htoken => ?_⟩
  cases b with
  | true => exact (hp.ends c (htoken rfl)).imp fun _ _ h => ⟨.inr h, fun _ => h⟩
  | false => exact hq.ends c

end Rules

/-! ## Single tokens -/

theorem ends_modify {g : Cursor → Cursor} (hg : ∀ c, (g c).position = c.position) (k : Nat) :
    Proceeds input k (modify g : Parser PUnit) :=
  ⟨fun c => .inl (hg c)⟩

instance (a : α) : Proceeds input k (pure a) := ⟨fun _ => .inl rfl⟩

instance : Proceeds input k (read : Parser Input) := ⟨fun _ => .inl rfl⟩

instance : Proceeds input k (get : Parser Cursor) := ⟨fun _ => .inl rfl⟩

instance (n : Nat) : Proceeds input k (peekAt n) := ⟨fun _ => .inl rfl⟩

instance : Proceeds input k peek := ⟨fun _ => .inl rfl⟩

instance : Proceeds input k peekKind := ⟨fun _ => .inl rfl⟩

instance (position : Nat) (message : String) : Advances input k (failAt position message : Parser α) :=
  ⟨fun _ _ => rfl⟩

instance (construct : String) : Advances input k (throw (.unsupported construct) : Parser α) :=
  ⟨fun _ _ => rfl⟩

instance (expecting : String) : Advances input k (unexpected expecting : Parser α) := by
  unfold unexpected
  refine Proceeds.andThen_advances inferInstance fun t => ?_
  split <;> infer_instance

/-- A bound that is never reached. -/
instance : Advances input 0 (stalled : Parser α) := ⟨fun _ h => absurd h (Nat.not_lt_zero _)⟩

theorem next_eq (input : Input) (c : Cursor) : next input c = match input.tokens[c.position]? with
    | some t => .ok (some t) { c with position := c.position + 1, lastEnd := t.span.stop }
    | none => .ok none c := by
  change (match input.tokens[c.position]? with
    | some t => (do
        modify fun c => { c with position := c.position + 1, lastEnd := t.span.stop }
        return some t)
    | none => return none : Parser (Option Token)) input c = _
  cases input.tokens[c.position]? <;> rfl

instance marks_next : Marks input k (fun t : Option Token => t.isSome = true) next := by
  refine ⟨fun c => ?_⟩
  rw [Ends, next_eq]
  cases htoken : input.tokens[c.position]? with
  | none => exact ⟨.inl rfl, fun h => nomatch h⟩
  | some t =>
    have hfurther : input.Further c { c with position := c.position + 1, lastEnd := t.span.stop } :=
      ⟨Nat.lt_succ_self _, (Array.getElem?_eq_some_iff.1 htoken).1⟩
    exact ⟨.inr hfurther, fun _ => hfurther⟩

theorem Proceeds.of_marks {p : Parser α} {good : α → Prop} (h : Marks input k good p) : Proceeds input k p :=
  ⟨fun c => (h.ends c).imp fun _ _ => And.left⟩

instance : Proceeds input k next := .of_marks marks_next

instance : Proceeds input k skip := by unfold skip; infer_instance

instance : AdvancesAt input k skip := by
  refine ⟨fun c hc => ?_⟩
  have hrun : skip input c =
      .ok () { c with position := c.position + 1, lastEnd := input.tokens[c.position].span.stop } := by
    simp only [skip, Bind.bind, ReaderT.bind, EStateM.bind, next_eq, Array.getElem?_eq_getElem hc]
    rfl
  rw [Ends, hrun]
  exact ⟨Nat.lt_succ_self _, hc⟩

instance : Proceeds input k start := by
  refine Proceeds.andThen inferInstance fun t => ?_
  split <;> infer_instance

instance (n : Nat) : Proceeds input k (spanFrom n) := by unfold spanFrom; infer_instance

instance (span : Span) : Proceeds input k (nodeAt span) := by
  refine Proceeds.andThen inferInstance fun c => ?_
  refine Proceeds.andThen (ends_modify (fun c => ?_) k) inferInstance
  rfl

instance (n : Nat) : Proceeds input k (nodeFrom n) := by unfold nodeFrom; infer_instance

/-! Looking at a token. -/

instance (test : Token → Bool) : Looks input (nextIs test) := by
  refine ⟨fun c => ⟨input.tokens[c.position]?.any test, rfl, fun h => ?_⟩⟩
  cases htoken : input.tokens[c.position]? with
  | none => simp [htoken] at h
  | some t => exact (Array.getElem?_eq_some_iff.1 htoken).1

instance (kind : TokenKind) : Looks input (atKind kind) := by unfold atKind; infer_instance

instance (word : String) : Looks input (atKeyword word) := by unfold atKeyword; infer_instance

instance (text : String) : Looks input (atOperator text) := by unfold atOperator; infer_instance

instance (word : String) : Looks input (atContextual word) := by unfold atContextual; infer_instance

instance : Looks input atEquals := by unfold atEquals; infer_instance

instance : Looks input atVariables := by unfold atVariables; infer_instance

/-! Taking a token of a kind. -/

instance : Marks input k (fun b : Bool => b = true) (pure false) := ⟨fun _ => ⟨.inl rfl, fun h => nomatch h⟩⟩

instance marks_eat (kind : TokenKind) : Marks input k (fun b : Bool => b = true) (eat kind) := by
  unfold eat
  infer_instance

instance (kind : TokenKind) : Proceeds input k (eat kind) := .of_marks (marks_eat kind)

instance (priority := high) Advances.bind_eat {kind : TokenKind} {p q : Parser α} [hp : Proceeds input k p]
    [hq : Advances input (k + 1) q] : Advances input (k + 1) (eat kind >>= fun b => if b = true then p else q) := by
  refine (marks_eat kind).andThen_advances (fun b hb => ?_) fun b hb => ?_
  · rw [if_pos hb]
    exact hp
  · rw [if_neg hb]
    exact hq

instance (priority := high) Marks.bind_eat {kind : TokenKind} {p q : Parser α} {good : α → Prop}
    [hp : Proceeds input k p] [hq : Marks input k good q] :
    Marks input k good (eat kind >>= fun b => if b = true then p else q) := by
  refine (marks_eat kind).andThen_marks (fun b hb => ?_) fun b hb => ?_
  · rw [if_pos hb]
    exact hp
  · rw [if_neg hb]
    exact hq

instance (kind : TokenKind) (expecting : String) : Advances input k (expect kind expecting) :=
  advances_peek inferInstance inferInstance

instance (word : String) : Advances input k (expectKeyword word) := by unfold expectKeyword; infer_instance

instance (word : String) : Advances input k (expectContextual word) := by unfold expectContextual; infer_instance

instance : Proceeds input k atStatementEnd := by
  refine Proceeds.andThen inferInstance fun t => ?_
  split <;> infer_instance

instance : Proceeds input k endStatement := by
  refine Proceeds.andThen inferInstance fun b => @Proceeds.ite _ _ _ _ _ _ _ inferInstance ?_
  refine Proceeds.andThen inferInstance fun t => ?_
  split <;> infer_instance

instance (t : Token) : Proceeds input k (identOf t) := by unfold identOf; infer_instance

instance : Advances input k ident := by unfold ident; infer_instance

instance : Advances input k word :=
  advances_peek inferInstance inferInstance

instance : Advances input k string := by unfold string; infer_instance

instance (t : Token) : Proceeds input k (numberOf t) := by
  rw [numberOf]
  split <;> infer_instance

instance : Advances input k moduleName := by unfold moduleName; infer_instance

instance (p : Parser α) [hp : Proceeds input k p] : Proceeds input k (allowingIn p) := by
  refine ⟨fun c => ?_⟩
  have hends := hp.ends { c with noIn := false }
  rw [Ends] at hends ⊢
  rw [allowingIn]
  cases hrun : p input { c with noIn := false } <;> rw [hrun] at hends <;> exact hends

instance (p : Parser α) [hp : Proceeds input k p] : Proceeds input k (forbiddingIn p) := by
  refine ⟨fun c => ?_⟩
  have hends := hp.ends { c with noIn := true }
  rw [Ends] at hends ⊢
  rw [forbiddingIn]
  cases hrun : p input { c with noIn := true } <;> rw [hrun] at hends <;> exact hends

/-! ## Loops -/

/-- A loop never goes through all rounds that it may, if these are more than the tokens that are left. -/
class Loops (input : Input) (k : Nat) (p : Nat → Parser α) : Prop where
  proceeds : ∀ m fuel, m ≤ k → m ≤ fuel → Proceeds input m (p fuel)

theorem ends_rounds {f : Nat → Parser α} {c : Cursor} {Q : α → Cursor → Prop}
    (h : ∀ m fuel, m ≤ k → m ≤ fuel → Ends input m (f fuel) c Q) : Ends input k (rounds >>= f) c Q := by
  have hrun : (rounds >>= f) input c = f (input.tokens.size + 1) input c := rfl
  rw [Ends, hrun]
  refine (h (min k (input.tokens.size + 1)) _ (Nat.min_le_left _ _) (Nat.min_le_right _ _)).of_left fun hleft => ?_
  exact Nat.lt_min.2 ⟨hleft, Nat.lt_succ_of_le (Nat.sub_le _ _)⟩

instance {p : Nat → Parser α} [hp : Loops input k p] : Proceeds input k (rounds >>= p) :=
  ⟨fun c => ends_rounds fun m fuel hk hfuel => (hp.proceeds m fuel hk hfuel).ends c⟩

instance {p : Nat → Parser α} {f : α → Parser β} [hp : Loops input k p] [hf : ∀ a, Proceeds input k (f a)] :
    Proceeds input k (rounds >>= fun n => p n >>= f) :=
  ⟨fun c => ends_rounds fun m fuel hk hfuel =>
    ((hp.proceeds m fuel hk hfuel).andThen fun a => (hf a).mono hk).ends c⟩

/-- A round after which there is another one. -/
def Round.IsMore : Round α → Prop
  | .more _ => True
  | _ => False

instance : Marks input k Round.IsMore (pure .stop : Parser (Round α)) := ⟨fun _ => ⟨.inl rfl, False.elim⟩⟩

instance (a : α) : Marks input k Round.IsMore (pure (.last a)) := ⟨fun _ => ⟨.inl rfl, False.elim⟩⟩

instance {round : Parser (Round α)} [hround : Marks input k Round.IsMore round] : Loops input k (collect round) := by
  refine ⟨fun m fuel hk hfuel => ?_⟩
  induction fuel generalizing m with
  | zero =>
    obtain rfl := Nat.le_zero.1 hfuel
    unfold collect
    infer_instance
  | succ fuel ih =>
    refine (hround.mono hk).andThen (fun r hr => ?_) fun r hr => ?_
    · cases r with
      | more a =>
        have hrest := ih (m - 1) ((Nat.sub_le m 1).trans hk) (Nat.sub_le_of_le_add hfuel)
        exact inferInstanceAs (Proceeds input (m - 1) (collect round fuel >>= fun items => pure (a :: items)))
      | _ => exact hr.elim
    · cases r with
      | more a => exact absurd trivial hr
      | _ => infer_instance

instance {item : Parser α} [Proceeds input k item] (close : TokenKind) : Proceeds input k (separated close item) := by
  unfold separated
  infer_instance

/-! ## Types -/

theorem advances_untilClosed (depth fuel : Nat) (hfuel : m ≤ fuel) : Advances input m (untilClosed depth fuel) := by
  induction fuel generalizing m depth with
  | zero =>
    obtain rfl := Nat.le_zero.1 hfuel
    unfold untilClosed
    infer_instance
  | succ fuel ih =>
    refine marks_next.andThen_advances (fun t ht => ?_) fun t ht => ?_
    · cases t with
      | none => cases ht
      | some token =>
        have := ih (bracketDepth depth token) (Nat.sub_le_of_le_add hfuel)
        dsimp only
        infer_instance
    · cases t with
      | none => infer_instance
      | some token => exact absurd rfl ht

instance : Advances input k balanced :=
  ⟨fun c => ends_rounds fun _ _ _ hfuel => (advances_untilClosed 0 _ hfuel).ends c⟩

instance : Proceeds input k typeParameters := by unfold typeParameters; infer_instance

instance : Loops input k typePath := by
  refine ⟨fun m fuel hk hfuel => ?_⟩
  clear hk
  induction fuel generalizing m with
  | zero =>
    obtain rfl := Nat.le_zero.1 hfuel
    unfold typePath
    infer_instance
  | succ fuel ih =>
    have hword : Proceeds input m (word >>= fun _ => typePath fuel) :=
      have hadvances : Advances input m (word >>= fun _ => typePath fuel) :=
        Advances.andThen inferInstance fun _ => ih (m - 1) (Nat.sub_le_of_le_add hfuel)
      hadvances.proceeds
    unfold typePath
    infer_instance

instance : Loops input k typeSuffix := by
  refine ⟨fun m fuel hk hfuel => ?_⟩
  clear hk
  induction fuel generalizing m with
  | zero =>
    obtain rfl := Nat.le_zero.1 hfuel
    unfold typeSuffix
    infer_instance
  | succ fuel ih =>
    have hrest := ih (m - 1) (Nat.sub_le_of_le_add hfuel)
    have hskip : AdvancesAt input m (skip >>= fun _ => skip >>= fun _ => typeSuffix fuel) :=
      AdvancesAt.andThen inferInstance inferInstance
    refine ⟨fun c => ends_looks fun b htoken => ?_⟩
    refine ends_peekAt ?_
    split
    · next hb =>
      refine (hskip.ends c (htoken ?_)).imp fun _ _ => .inr
      exact (Bool.and_eq_true_iff.1 hb).1
    · exact .inl rfl

end Parser

/-! ## Productions -/

-- a long parser is put together from as many instances as it has steps
set_option synthInstance.maxSize 1000

/-- All productions take a token, where few enough are left. -/
class Productions.Advance (input : Input) (k : Nat) (r : Productions) : Prop where
  typeOnly : Parser.Advances input k r.typeOnly
  target : Parser.Advances input k r.target
  unary : Parser.Advances input k r.unary
  binary : ∀ least, Parser.Advances input k (r.binary least)
  assignment : Parser.Advances input k r.assignment
  expression : Parser.Advances input k r.expression
  statement : Parser.Advances input k r.statement

theorem Productions.Advance.mono {input : Input} {k m : Nat} {r : Productions} (h : r.Advance input k) (hm : m ≤ k) :
    r.Advance input m :=
  ⟨h.typeOnly.mono hm, h.target.mono hm, h.unary.mono hm, fun least => (h.binary least).mono hm,
    h.assignment.mono hm, h.expression.mono hm, h.statement.mono hm⟩

namespace Parser

variable {input : Input} {k : Nat} {r : Productions} [hr : r.Advance input k]

instance : Advances input k r.typeOnly := hr.typeOnly
instance : Advances input k r.target := hr.target
instance : Advances input k r.unary := hr.unary
instance (least : Nat) : Advances input k (r.binary least) := hr.binary least
instance : Advances input k r.assignment := hr.assignment
instance : Advances input k r.expression := hr.expression
instance : Advances input k r.statement := hr.statement

/-! Types. -/

instance : Advances input (k + 1) (typeMember r) := by
  refine advances_peekKind inferInstance fun kind => ?_
  split <;> infer_instance

theorem advances_typeUnion (fuel : Nat) {m : Nat} (hm : m ≤ k + 1) (hfuel : m ≤ fuel) :
    Advances input m (typeUnion r fuel) := by
  induction fuel generalizing m with
  | zero =>
    obtain rfl := Nat.le_zero.1 hfuel
    unfold typeUnion
    infer_instance
  | succ fuel ih =>
    have hmember : Advances input m (typeMember r) :=
      Advances.mono (k := k + 1) inferInstance hm
    have := ih ((Nat.sub_le m 1).trans hm) (Nat.sub_le_of_le_add hfuel)
    exact hmember.andThen inferInstance

instance : Advances input (k + 1) (typeOnly r) :=
  ⟨fun c => ends_rounds fun _ fuel hm hfuel => (advances_typeUnion fuel hm hfuel).ends c⟩

instance : Proceeds input k ( typeAnnotation r) := by unfold typeAnnotation; infer_instance

/-! Patterns. -/

instance : Advances input (k + 1) (propertyKey r) := by
  refine advances_peek inferInstance fun token => ?_
  dsimp only
  split <;> infer_instance

instance (n : Nat) (p : Pattern) : Proceeds input k (withDefault r n p) := by unfold withDefault; infer_instance

instance : Marks input k Round.IsMore (arrayPatternRound r) := by
  unfold arrayPatternRound
  dsimp only
  infer_instance

instance : Proceeds input k (patternProperty r) := by
  unfold patternProperty
  refine Proceeds.andThen inferInstance fun b => ?_
  split
  · infer_instance
  · refine Proceeds.andThen inferInstance fun n => Proceeds.andThen inferInstance fun key =>
      Proceeds.andThen inferInstance fun c => ?_
    split
    · infer_instance
    · split <;> infer_instance

instance : Advances input (k + 1) (target r) := by
  refine Proceeds.andThen_advances inferInstance fun n => advances_peekKind inferInstance fun kind => ?_
  split <;> infer_instance

instance : Advances input (k + 1) (parameter r) := by unfold parameter; infer_instance

instance : Advances input (k + 1) (parameters r) := by unfold parameters; infer_instance

/-! Expressions. -/

instance : Advances input (k + 1) (block r) := by
  unfold block
  dsimp only
  infer_instance

instance (requireName : Bool) : Advances input (k + 1) (function r requireName) := by
  unfold function
  dsimp only
  infer_instance

instance (n : Nat) : Advances input (k + 1) (method r n) := by unfold method; infer_instance

instance : Advances input k (element r) := by unfold element; infer_instance

instance : Advances input (k + 1) (arrayLiteral r) := by
  unfold arrayLiteral
  dsimp only
  infer_instance

instance : Proceeds input k (property r) := by
  unfold property
  refine Proceeds.andThen inferInstance fun b => Proceeds.either inferInstance ?_
  refine Proceeds.andThen inferInstance fun n => Proceeds.andThen inferInstance fun token =>
    Proceeds.andThen inferInstance fun key => Proceeds.andThen inferInstance fun c =>
    Proceeds.either inferInstance ?_
  refine Proceeds.andThen inferInstance fun o => Proceeds.either inferInstance ?_
  split <;> infer_instance

instance : Advances input (k + 1) (objectLiteral r) := by unfold objectLiteral; infer_instance

instance (t : Token) (n : Nat) : AdvancesAt input (k + 1) (keywordPrimary r t n) := by
  rw [keywordPrimary]
  split <;> infer_instance

instance : Advances input (k + 1) (primary r) := by
  refine Proceeds.andThen_advances inferInstance fun n => advances_peek inferInstance fun token => ?_
  dsimp only
  split <;> infer_instance

instance : Advances input (k + 1) (arguments r) := by unfold arguments; infer_instance

instance (calls : Bool) (n : Nat) (e : Expr) : Loops input k (suffixes r calls n e) := by
  refine ⟨fun m fuel hm hfuel => ?_⟩
  induction fuel generalizing m e with
  | zero =>
    obtain rfl := Nat.le_zero.1 hfuel
    unfold suffixes
    infer_instance
  | succ fuel ih =>
    have harguments : Advances input m (arguments r) :=
      Advances.mono (k := k + 1) inferInstance (hm.trans k.le_succ)
    have := hr.mono hm
    have := hr.mono ((Nat.sub_le m 1).trans hm)
    have hrest (e : Expr) := ih e (m - 1) ((Nat.sub_le m 1).trans hm) (Nat.sub_le_of_le_add hfuel)
    refine Proceeds.andThen inferInstance fun kind => ?_
    split
    · exact Proceeds.andThen inferInstance fun _ => (Advances.andThen inferInstance inferInstance).proceeds
    · exact Proceeds.andThen inferInstance fun _ => (Advances.andThen inferInstance inferInstance).proceeds
    · split
      · exact (harguments.andThen inferInstance).proceeds
      · infer_instance
    · infer_instance

instance : Advances input (k + 1) (memberOnly r) := by
  unfold memberOnly
  infer_instance

instance : Advances input (k + 1) (callMember r) := by
  unfold callMember
  dsimp only
  infer_instance

instance : Advances input (k + 1) (postfixUpdate r) := by
  refine Proceeds.andThen_advances inferInstance fun n => Advances.andThen_succ inferInstance fun e =>
    Proceeds.andThen inferInstance fun t => ?_
  split
  · infer_instance
  · split
    · infer_instance
    · split <;> infer_instance

instance : Advances input (k + 1) (unary r) := by
  refine Proceeds.andThen_advances inferInstance fun n => advances_peek inferInstance fun t => ?_
  dsimp only
  split <;> infer_instance

instance (least n : Nat) (e : Expr) : Loops input k (binaryRest r least n e) := by
  refine ⟨fun m fuel hm hfuel => ?_⟩
  induction fuel generalizing m e with
  | zero =>
    obtain rfl := Nat.le_zero.1 hfuel
    unfold binaryRest
    infer_instance
  | succ fuel ih =>
    have := hr.mono hm
    have hrest (e : Expr) := ih e (m - 1) ((Nat.sub_le m 1).trans hm) (Nat.sub_le_of_le_add hfuel)
    refine Proceeds.andThen inferInstance fun t => Proceeds.andThen inferInstance fun c => ?_
    split
    · infer_instance
    · refine Proceeds.either inferInstance ?_
      exact Proceeds.andThen inferInstance fun _ => (Advances.andThen inferInstance inferInstance).proceeds

instance (least : Nat) : Advances input (k + 1) (binary r least) := by unfold binary; infer_instance

instance : Advances input (k + 1) (conditional r) := by unfold conditional; infer_instance

/-- An attempt that fails gives the cursor back. -/
instance marks_arrowParameters? : Marks input (k + 1) (fun params => params.isSome = true) (arrowParameters? r) := by
  have hattempt : Advances input (k + 1) (do
      let params ← parameters r
      typeAnnotation r
      return (params, ← atKind .arrow)) := inferInstance
  refine ⟨fun c => ?_⟩
  have hends := hattempt.ends c
  rw [Ends] at hends ⊢
  rw [arrowParameters?]
  split at hends
  · next p c' heq =>
    rw [heq]
    rcases p with ⟨params, _ | _⟩
    · exact ⟨.inl rfl, fun h => nomatch h⟩
    · exact ⟨.inr hends, fun _ => hends⟩
  · next heq =>
    rw [heq]
    exact ⟨.inl rfl, fun h => nomatch h⟩

instance (n : Nat) (params : List Pattern) : Advances input (k + 1) (arrowRest r n params) := by
  unfold arrowRest
  dsimp only
  infer_instance

instance : Marks input k (fun a : Option α => a.isSome = true) (pure none) :=
  ⟨fun _ => ⟨.inl rfl, fun h => nomatch h⟩⟩

instance marks_arrow? : Marks input (k + 1) (fun arrow => arrow.isSome = true) (arrow? r) := by
  refine Proceeds.andThen_marks inferInstance fun n => Proceeds.andThen_marks inferInstance fun kind => ?_
  split
  · infer_instance
  · refine marks_arrowParameters?.andThen_marks (fun params h => ?_) fun params h => ?_
    · split <;> infer_instance
    · cases params with
      | none =>
        dsimp only
        infer_instance
      | some params => exact absurd rfl h
  · infer_instance

instance (op : AssignOp) (left : Expr) : Proceeds input k (assignmentTarget op left) := by
  have htarget : Proceeds input k (match left.toPattern with
      | .ok target => return target
      | .error place => failAt place "invalid assignment target" : Parser Pattern) := by
    split <;> infer_instance
  unfold assignmentTarget
  dsimp only
  infer_instance

instance : Advances input (k + 1) (assignment r) := by
  refine Proceeds.andThen_advances inferInstance fun n => ?_
  refine marks_arrow?.andThen_advances (fun arrow h => ?_) fun arrow h => ?_
  · cases arrow with
    | none => cases h
    | some arrow => infer_instance
  · cases arrow with
    | some arrow => exact absurd rfl h
    | none =>
      refine Advances.andThen_succ inferInstance fun left => Proceeds.andThen inferInstance fun token => ?_
      split
      · infer_instance
      · refine Proceeds.either inferInstance ?_
        split <;> infer_instance

instance : Proceeds input k (sequenceRest r) := by
  unfold sequenceRest
  dsimp only
  infer_instance

instance : Advances input (k + 1) (expression r) := by unfold expression; infer_instance

/-! Statements. -/

instance : Advances input (k + 1) (parenthesized r) := by unfold parenthesized; infer_instance

instance : Advances input (k + 1) (declarator r) := by
  unfold declarator
  dsimp only
  infer_instance

instance : Proceeds input k (declarators r) := by
  unfold declarators
  dsimp only
  infer_instance

instance : Advances input (k + 1) (variableList r) := by
  refine marks_next.andThen_advances (fun t h => ?_) fun t h => ?_
  · cases t with
    | none => cases h
    | some t =>
      change Proceeds input k (match VarKind.ofText? t.text with
        | none => failAt t.span.start "expected `var`, `let` or `const`"
        | some kind => return (kind, ← declarators r))
      split <;> infer_instance
  · cases t with
    | none => infer_instance
    | some t => exact absurd rfl h

instance (n : Nat) : Advances input (k + 1) (ifStatement r n) := by
  unfold ifStatement
  dsimp only
  infer_instance

instance : Proceeds input k (forHead r) := by unfold forHead; infer_instance

instance (kind : TokenKind) : Proceeds input k (expressionUnless r kind) := by unfold expressionUnless; infer_instance

instance (n : Nat) : Advances input (k + 1) (forStatement r n) := by
  unfold forStatement
  refine Advances.andThen_succ inferInstance fun _ => Proceeds.andThen inferInstance fun _ =>
    Proceeds.andThen inferInstance fun head => Proceeds.andThen inferInstance fun isIn =>
    Proceeds.andThen inferInstance fun isOf => ?_
  split
  · split
    · infer_instance
    · dsimp only
      infer_instance
  · infer_instance

instance : Advances input (k + 1) (classMember r) := by
  unfold classMember
  dsimp only
  infer_instance

instance : Advances input (k + 1) (classBody r) := by
  unfold classBody
  dsimp only
  infer_instance

instance : Advances input k importSpecifier := by
  unfold importSpecifier
  dsimp only
  infer_instance

instance : Proceeds input k importSpecifiers := by
  refine Proceeds.andThen inferInstance fun isNamed => ?_
  dsimp only
  split
  · refine Proceeds.andThen inferInstance fun bound => Proceeds.andThen inferInstance fun _ => ?_
    infer_instance
  · infer_instance

instance (n : Nat) : Advances input k (importStatement n) := by
  unfold importStatement
  dsimp only
  infer_instance

instance : Advances input k exportSpecifier := by
  unfold exportSpecifier
  dsimp only
  infer_instance

instance : Proceeds input k (exportedValue r) := by unfold exportedValue; infer_instance

instance (n : Nat) : Advances input (k + 1) (exportStatement r n) := by
  unfold exportStatement
  dsimp only
  infer_instance

instance : Proceeds input k label := by unfold label; infer_instance

instance (n : Nat) : Advances input (k + 1) (expressionStatement r n) := by unfold expressionStatement; infer_instance

instance (word : String) (n : Nat) : AdvancesAt input (k + 1) (keywordStatement r word n) := by
  unfold keywordStatement
  split <;> infer_instance

instance : Advances input (k + 1) (statement r) := by
  refine Proceeds.andThen_advances inferInstance fun n => advances_peek inferInstance fun token => ?_
  dsimp only
  split <;> infer_instance

end Parser

/-! ## The grammar -/

theorem Productions.advance_none (input : Input) : Productions.none.Advance input 0 := by
  constructor
  case binary => exact fun _ => inferInstanceAs (Parser.Advances input 0 Parser.stalled)
  all_goals exact inferInstanceAs (Parser.Advances input 0 Parser.stalled)

/-- A grammar composed with itself as often as tokens are left is all that is needed. -/
instance Productions.advance_nest (input : Input) (k : Nat) : (Productions.nest k).Advance input k := by
  induction k with
  | zero => exact advance_none input
  | succ k ih =>
    constructor
    case typeOnly => exact inferInstanceAs (Parser.Advances input (k + 1) (Parser.typeOnly (nest k)))
    case target => exact inferInstanceAs (Parser.Advances input (k + 1) (Parser.target (nest k)))
    case unary => exact inferInstanceAs (Parser.Advances input (k + 1) (Parser.unary (nest k)))
    case binary => exact fun least => inferInstanceAs (Parser.Advances input (k + 1) (Parser.binary (nest k) least))
    case assignment => exact inferInstanceAs (Parser.Advances input (k + 1) (Parser.assignment (nest k)))
    case expression => exact inferInstanceAs (Parser.Advances input (k + 1) (Parser.expression (nest k)))
    case statement => exact inferInstanceAs (Parser.Advances input (k + 1) (Parser.statement (nest k)))

namespace Parser

theorem proceeds_statements (input : Input) : Proceeds input (input.tokens.size + 1) statements := by
  refine ⟨fun c => ?_⟩
  have hrun : statements input c = (rounds >>= collect (do
      if (← peek).isNone then return .stop
      return .more (← (Productions.nest (input.tokens.size + 1)).statement))) input c := by
    unfold statements
    rfl
  rw [Ends, hrun]
  exact Proceeds.ends c

theorem isUserError_of_parse {source : Source} {e : Error} (h : parse source = .error e) : e.isUserError = true := by
  rw [parse, Source.tokens] at h
  cases hscan : Token.scan 0 source.text.toList 0 false [] with
  | error fault =>
    rw [hscan] at h
    obtain rfl := Except.error.inj h
    rfl
  | ok tokens =>
    have hends := (proceeds_statements ⟨source, tokens.toArray⟩).ends Cursor.initial
    rw [hscan] at h
    simp only [bind, Except.bind] at h
    rw [Ends] at hends
    split at h
    · cases h
    · next e' _ hrun =>
      rw [hrun] at hends
      obtain rfl := Except.error.inj h
      exact hends (Nat.lt_succ_of_le (Nat.sub_le _ _))

/-- Whatever stops a parse is in the text: no bound of a loop or of the grammar is ever reached.  And whatever the
tokens are and wherever the cursor stands, a production that succeeds has taken a token and stands no further than
behind the last one; it is stopped by the text alone if it may call itself as often as tokens are left. -/
theorem advances_productions :
    (∀ source, match parse source with
      | .ok _ => True
      | .error e => e.isUserError = true) ∧
    ∀ (input : Input) (k : Nat),
      Advances input (k + 1) (statement (.nest k)) ∧ Advances input (k + 1) (expression (.nest k)) ∧
      Advances input (k + 1) (assignment (.nest k)) ∧ Advances input (k + 1) (target (.nest k)) ∧
      Advances input (k + 1) (propertyKey (.nest k)) ∧ Advances input (k + 1) (parameters (.nest k)) ∧
      Advances input (k + 1) (typeOnly (.nest k)) ∧ Advances input (k + 1) balanced := by
  refine ⟨fun source => ?_, fun input k => ⟨inferInstance, inferInstance, inferInstance, inferInstance,
    inferInstance, inferInstance, inferInstance, inferInstance⟩⟩
  split
  · trivial
  · next e h => exact isUserError_of_parse h

end Parser

end Whittle.Syntax
