import Mathlib.Tactic.TypeStar

/-!
# Programs under a monitor

`Prog` is the tree of what a program does next for every answer it may get: it asks for permissions,
reads a store and performs effects. `Safe` follows it through all answers of the store; `Safe.run`
turns this into a relation between the store before a run and after it. A program that asks for
nothing (`AskFree`) runs the same under every monitor.
-/

namespace Monitor

/-- What a program may ask for, read and do. -/
structure Interface where
  Access : Type
  Query : Type
  Answer : Query → Type
  Effect : Type
  Outcome : Effect → Type

inductive Prog (I : Interface) (α : Type) where
  | pure (a : α)
  | ask (r : I.Access) (next : Bool → Prog I α)
  | query (q : I.Query) (next : I.Answer q → Prog I α)
  | perform (e : I.Effect) (next : I.Outcome e → Prog I α)

/-- A store: how it answers, and what an effect returns and makes of it. -/
structure Store (I : Interface) (σ : Type) where
  answer : (q : I.Query) → σ → I.Answer q
  perform : (e : I.Effect) → σ → I.Outcome e × σ

variable {I : Interface} {α β σ : Type}

namespace Prog

def bind : Prog I α → (α → Prog I β) → Prog I β
  | .pure a, f => f a
  | .ask r next, f => .ask r fun b => (next b).bind f
  | .query q next, f => .query q fun a => (next a).bind f
  | .perform e next, f => .perform e fun o => (next o).bind f

instance : Monad (Prog I) where
  pure := .pure
  bind := .bind

def askFor (r : I.Access) : Prog I Bool := .ask r .pure

def read (q : I.Query) : Prog I (I.Answer q) := .query q .pure

def act (e : I.Effect) : Prog I (I.Outcome e) := .perform e .pure

def run (permit : I.Access → Bool) (st : Store I σ) : Prog I α → σ → α × σ
  | .pure a, s => (a, s)
  | .ask r next, s => run permit st (next (permit r)) s
  | .query q next, s => run permit st (next (st.answer q s)) s
  | .perform e next, s =>
    let x := st.perform e s
    run permit st (next x.1) x.2

end Prog

/-- The monitor's answers, the effects that are admitted, and what they may return. -/
structure Spec (I : Interface) where
  permit : I.Access → Bool
  mayPerform : I.Effect → Prop
  mayReturn : (e : I.Effect) → I.Outcome e → Prop

/-- Whatever the store answers, only admitted effects are come to, and the result satisfies `post`. -/
def Safe (S : Spec I) : Prog I α → (α → Prop) → Prop
  | .pure a, post => post a
  | .ask r next, post => Safe S (next (S.permit r)) post
  | .query _ next, post => ∀ a, Safe S (next a) post
  | .perform e next, post => S.mayPerform e ∧ ∀ o, S.mayReturn e o → Safe S (next o) post

section safe

theorem Safe.mono (h : Safe S p post) (hpost : ∀ a, post a → post' a) : Safe S p post' := by
  induction p with
  | pure a => exact hpost a h
  | ask r next ih => exact ih _ h
  | query q next ih => exact fun a => ih a (h a)
  | perform e next ih => exact ⟨h.1, fun o ho => ih o (h.2 o ho)⟩

/-- Sequencing: the second program is safe after every result of the first. -/
theorem safe_bind {f : α → Prog I β} {post : β → Prop} :
    Safe S (p >>= f) post ↔ Safe S p fun a => Safe S (f a) post := by
  induction p with
  | pure a => exact Iff.rfl
  | ask r next ih => exact ih _
  | query q next ih => exact forall_congr' ih
  | perform e next ih =>
    exact and_congr_right fun _ => forall_congr' fun o => imp_congr_right fun _ => ih o

/-- A permission is asked for: the program goes on with the monitor's answer. -/
theorem safe_askFor_bind {r : I.Access} {next : Bool → Prog I β} {post : β → Prop}
    (h : Safe S (next (S.permit r)) post) : Safe S (.askFor r >>= next) post :=
  safe_bind.2 h

theorem safe_read (q : I.Query) {post : I.Answer q → Prop} : Safe S (.read q) post ↔ ∀ a, post a := Iff.rfl

theorem safe_act (e : I.Effect) {post : I.Outcome e → Prop} :
    Safe S (.act e) post ↔ S.mayPerform e ∧ ∀ o, S.mayReturn e o → post o := Iff.rfl

theorem safe_act_bind {e : I.Effect} {next : I.Outcome e → Prog I β} {post : β → Prop}
    (he : S.mayPerform e) (hnext : ∀ o, S.mayReturn e o → Safe S (next o) post) : Safe S (.act e >>= next) post :=
  safe_bind.2 ((safe_act e).2 ⟨he, hnext⟩)

theorem safe_forM {l : List β} {f : β → Prog I PUnit} (h : ∀ b ∈ l, Safe S (f b) fun _ => True) :
    Safe S (l.forM f) fun _ => True := by
  induction l with
  | nil => exact trivial
  | cons b l ih =>
    have hrest := ih fun b' hb' => h b' (List.mem_cons_of_mem b hb')
    exact safe_bind.2 ((h b List.mem_cons_self).mono fun _ _ => hrest)

theorem safe_mapM {γ : Type} {l : List β} {f : β → Prog I γ} (h : ∀ b ∈ l, Safe S (f b) fun _ => True) :
    Safe S (l.mapM' f) fun _ => True := by
  induction l with
  | nil => exact trivial
  | cons b l ih =>
    have hrest := ih fun b' hb' => h b' (List.mem_cons_of_mem b hb')
    exact safe_bind.2 ((h b List.mem_cons_self).mono fun _ _ => safe_bind.2 (hrest.mono fun _ _ => trivial))

theorem safe_mapM_bind {γ δ : Type} {l : List β} {f : β → Prog I γ} {next : List γ → Prog I δ}
    {post : δ → Prop} (h : ∀ b ∈ l, Safe S (f b) fun _ => True) (hnext : ∀ cs, Safe S (next cs) post) :
    Safe S (l.mapM' f >>= next) post :=
  safe_bind.2 ((safe_mapM h).mono fun cs _ => hnext cs)

/-- The result satisfies the postcondition, and a relation that admitted effects keep holds between
the stores. -/
theorem Safe.run {st : Store I σ} {R : σ → σ → Prop} (h : Safe S p post)
    (hreturn : ∀ e s, S.mayReturn e (st.perform e s).1) (hrefl : ∀ s, R s s)
    (htrans : ∀ {s t u}, R s t → R t u → R s u)
    (hstep : ∀ e s, S.mayPerform e → R s (st.perform e s).2) (s : σ) :
    post (p.run S.permit st s).1 ∧ R s (p.run S.permit st s).2 := by
  induction p generalizing s with
  | pure a => exact ⟨h, hrefl s⟩
  | ask r next ih => exact ih _ h s
  | query q next ih => exact ih _ (h _) s
  | perform e next ih =>
    obtain ⟨hresult, hrest⟩ := ih _ (h.2 _ (hreturn e s)) (st.perform e s).2
    exact ⟨hresult, htrans (hstep e s h.1) hrest⟩

end safe

/-! ## Programs that ask for nothing -/

/-- No permission is asked for, whatever the store answers. -/
def AskFree : Prog I α → Prop
  | .pure _ => True
  | .ask _ _ => False
  | .query _ next => ∀ a, AskFree (next a)
  | .perform _ next => ∀ o, AskFree (next o)

section askFree

theorem askFree_read (q : I.Query) : AskFree (.read q : Prog I (I.Answer q)) := fun _ => trivial

theorem askFree_act (e : I.Effect) : AskFree (.act e : Prog I (I.Outcome e)) := fun _ => trivial

theorem AskFree.bind {f : α → Prog I β} (h : AskFree p) (hf : ∀ a, AskFree (f a)) : AskFree (p >>= f) := by
  induction p with
  | pure a => exact hf a
  | ask r next => exact h.elim
  | query q next ih => exact fun a => ih a (h a)
  | perform e next ih => exact fun o => ih o (h o)

theorem AskFree.forM {l : List β} {f : β → Prog I PUnit} (h : ∀ b, AskFree (f b)) : AskFree (l.forM f) := by
  induction l with
  | nil => exact trivial
  | cons b l ih => exact (h b).bind fun _ => ih

theorem AskFree.mapM {γ : Type} {l : List β} {f : β → Prog I γ} (h : ∀ b, AskFree (f b)) :
    AskFree (l.mapM' f) := by
  induction l with
  | nil => exact trivial
  | cons b l ih => exact (h b).bind fun _ => ih.bind fun _ => trivial

theorem AskFree.run_eq (h : AskFree p) (permit permit' : I.Access → Bool) (st : Store I σ) (s : σ) :
    p.run permit st s = p.run permit' st s := by
  induction p generalizing s with
  | pure a => rfl
  | ask r next => exact h.elim
  | query q next ih => exact ih _ (h _) s
  | perform e next ih => exact ih _ (h _) _

end askFree

end Monitor
