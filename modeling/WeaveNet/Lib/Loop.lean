import Mathlib

/-!
# Loops that a step may stop

`foldUntil f xs st` runs `f` over `xs`, threading a state, until a step asks to stop. It is the
loop `for _, x := range xs { if f(x) { return true } }; return false` where `f` is a closure
writing to captured variables: the captured variables are the state `σ`.

Three rules describe it: a step that always stops runs once (`foldUntil_cons_of_stop`), a step
that never stops makes a left fold (`foldUntil_of_never_stops`), and what every step preserves
holds of the final state (`foldUntil_induction`).

A loop whose body may `return nil, err` is `List.foldlM` in `Except`. Of a loop that succeeded,
two rules say what is known: a relation that every step establishes holds between the first and
the last state (`foldlM_ok_rel`), and each element's step ran between two states so related to
the ends (`foldlM_ok_mem`). Both rest on the bind rule `bind_eq_ok`.

A state machine driven by a list of events, each of which may be refused, is `List.foldlM` in
`Option`. What every allowed step preserves holds at the end of every run whose events are all
allowed (`foldlM_some_induction`).

A trace of steps, each reporting a state it started from and one it ended at, links up from `a`
to `b` (`Links`) when each starts where the one before ended; it does across a concatenation
exactly when its parts do (`links_append`).
-/

namespace WeaveNet.Lib

section Until

variable {β σ : Type*} (f : β → σ → Bool × σ)

/-- Run `f` over the list until it returns `true`; return whether it did, and the last state. -/
def foldUntil : List β → σ → Bool × σ
  | [], st => (false, st)
  | b :: bs, st =>
    match f b st with
    | (true, st') => (true, st')
    | (false, st') => foldUntil bs st'

@[simp] theorem foldUntil_nil (st : σ) : foldUntil f [] st = (false, st) := rfl

theorem foldUntil_cons_of_stop {b : β} {st : σ} (h : (f b st).1 = true) (bs : List β) :
    foldUntil f (b :: bs) st = f b st := by
  rw [foldUntil]
  rcases hf : f b st with ⟨_ | _, st'⟩
  · rw [hf] at h; cases h
  · rfl

theorem foldUntil_cons_of_continue {b : β} {st : σ} (h : (f b st).1 = false) (bs : List β) :
    foldUntil f (b :: bs) st = foldUntil f bs (f b st).2 := by
  rw [foldUntil]
  rcases hf : f b st with ⟨_ | _, st'⟩
  · rfl
  · rw [hf] at h; cases h

/-- A loop whose step never stops visits every element: it is a left fold. -/
theorem foldUntil_of_never_stops (h : ∀ b st, (f b st).1 = false) :
    ∀ (bs : List β) (st : σ), foldUntil f bs st = (false, bs.foldl (fun st b => (f b st).2) st)
  | [], _ => rfl
  | b :: bs, st => by
    rw [foldUntil_cons_of_continue f (h b st), foldUntil_of_never_stops h bs, List.foldl_cons]

/-- **The invariant rule.** A property of the state that every step preserves, on the elements
of the list, holds when the loop ends, whether or not a step stopped it. -/
theorem foldUntil_induction (P : σ → Prop) :
    ∀ {bs : List β} {st : σ}, (∀ b ∈ bs, ∀ st, P st → P (f b st).2) → P st →
      P (foldUntil f bs st).2
  | [], _, _, h0 => h0
  | b :: bs, st, hstep, h0 => by
    have hb := hstep b (List.mem_cons_self ..) st h0
    cases hc : (f b st).1
    · rw [foldUntil_cons_of_continue f hc]
      exact foldUntil_induction P (fun b' hb' => hstep b' (List.mem_cons_of_mem _ hb')) hb
    · rw [foldUntil_cons_of_stop f hc]
      exact hb

/-- **What one element's step establishes and every step keeps holds at the end** of a loop that
never stops. -/
theorem foldUntil_of_mem (hcont : ∀ b st, (f b st).1 = false) (P : σ → Prop) {b : β} :
    ∀ {bs : List β}, b ∈ bs → (∀ st, P (f b st).2) → (∀ b' ∈ bs, ∀ st, P st → P (f b' st).2) →
      ∀ st, P (foldUntil f bs st).2
  | b' :: bs, hb, hest, hkeep, st => by
    rw [foldUntil_cons_of_continue f (hcont b' st)]
    have hkeep' : ∀ b'' ∈ bs, ∀ st, P st → P (f b'' st).2 :=
      fun b'' hb'' => hkeep b'' (List.mem_cons_of_mem _ hb'')
    rcases List.mem_cons.1 hb with rfl | hb
    · exact foldUntil_induction f P hkeep' (hest st)
    · exact foldUntil_of_mem hcont P hb hest hkeep' _

end Until

/-! ## Loops that may fail -/

section Except

variable {α β σ ε : Type}

theorem bind_eq_ok {γ : Type} {x : Except ε α} {g : α → Except ε γ} {r : γ} :
    x >>= g = .ok r ↔ ∃ a, x = .ok a ∧ g a = .ok r := by
  cases x with
  | error e => simp [bind, Except.bind]
  | ok a => simp [bind, Except.bind]

variable {f : σ → β → Except ε σ} (R : σ → σ → Prop)

/-- **The relation rule.** A reflexive and transitive relation that every step of a loop
establishes between its states holds between the first and the last state of a run that
succeeded. -/
theorem foldlM_ok_rel (hrefl : ∀ s, R s s) (htrans : ∀ s t u, R s t → R t u → R s u) :
    ∀ {bs : List β} {s t : σ}, (∀ b ∈ bs, ∀ s t, f s b = .ok t → R s t) →
      bs.foldlM f s = .ok t → R s t
  | [], s, t, _, h => by
    cases h
    exact hrefl s
  | b :: bs, s, t, hstep, h => by
    obtain ⟨s', h1, h2⟩ := bind_eq_ok.1 h
    have hb : R s s' := hstep b (List.mem_cons_self ..) s s' h1
    exact htrans _ _ _ hb
      (foldlM_ok_rel hrefl htrans (fun b' hb' => hstep b' (List.mem_cons_of_mem _ hb')) h2)

/-- **An element's step.** In a run that succeeded, the step of each element ran on a state
related to the first and led to a state related to the last. -/
theorem foldlM_ok_mem (hrefl : ∀ s, R s s) (htrans : ∀ s t u, R s t → R t u → R s u) :
    ∀ {bs : List β} {s t : σ}, (∀ b ∈ bs, ∀ s t, f s b = .ok t → R s t) →
      ∀ {b : β}, b ∈ bs → bs.foldlM f s = .ok t →
        ∃ u u', R s u ∧ f u b = .ok u' ∧ R u' t
  | [], _, _, _, _, hb, _ => absurd hb List.not_mem_nil
  | b' :: bs, s, t, hstep, b, hb, h => by
    obtain ⟨s', h1, h2⟩ := bind_eq_ok.1 h
    have hrest : ∀ c ∈ bs, ∀ s t, f s c = .ok t → R s t :=
      fun c hc => hstep c (List.mem_cons_of_mem _ hc)
    rcases List.mem_cons.1 hb with rfl | hb
    · exact ⟨s, s', hrefl s, h1, foldlM_ok_rel R hrefl htrans hrest h2⟩
    · obtain ⟨u, u', hu, hf, hu'⟩ := foldlM_ok_mem hrefl htrans hrest hb h2
      exact ⟨u, u', htrans _ _ _ (hstep b' (List.mem_cons_self ..) s s' h1) hu, hf, hu'⟩

end Except

/-! ## Runs that may be refused -/

section Option

variable {β σ : Type} {f : σ → β → Option σ} (P : σ → Prop) (Q : β → Prop)

/-- **The invariant rule.** What holds of the first state, and what each step on an allowed event
preserves, holds of the last state of a run of allowed events. -/
theorem foldlM_some_induction (hstep : ∀ b s t, Q b → P s → f s b = some t → P t) :
    ∀ {bs : List β} {s t : σ}, (∀ b ∈ bs, Q b) → P s → bs.foldlM f s = some t → P t
  | [], s, t, _, hs, h => by
    cases h
    exact hs
  | b :: bs, s, t, hq, hs, h => by
    obtain ⟨s', h1, h2⟩ := Option.bind_eq_some_iff.1 h
    have hs' : P s' := hstep b s s' (hq b (List.mem_cons_self ..)) hs h1
    exact foldlM_some_induction hstep (fun b' hb' => hq b' (List.mem_cons_of_mem _ hb')) hs' h2

end Option

/-! ## Traces that link up -/

section Links

variable {β σ : Type} (src tgt : β → σ)

/-- `Links src tgt a l b`: the steps of `l`, in order, lead from `a` to `b`, each starting where
the one before it ended; `src` and `tgt` read a step's two ends. -/
def Links : σ → List β → σ → Prop
  | a, [], b => a = b
  | a, x :: l, b => src x = a ∧ Links (tgt x) l b

variable {src tgt} {a b : σ} {x : β} {l₂ : List β}

@[simp] theorem links_nil : Links src tgt a [] b ↔ a = b := Iff.rfl

@[simp] theorem links_cons {l : List β} :
    Links src tgt a (x :: l) b ↔ src x = a ∧ Links src tgt (tgt x) l b := Iff.rfl

/-- A trace links up exactly when its two parts do, through the state between them. -/
theorem links_append : ∀ {a c : σ} {l₁ : List β},
    Links src tgt a (l₁ ++ l₂) c ↔ ∃ b, Links src tgt a l₁ b ∧ Links src tgt b l₂ c
  | a, c, [] => by simp
  | a, c, x :: l₁ => by
    simp only [List.cons_append, links_cons, links_append]
    constructor
    · rintro ⟨hx, b, h1, h2⟩
      exact ⟨b, ⟨hx, h1⟩, h2⟩
    · rintro ⟨b, ⟨hx, h1⟩, h2⟩
      exact ⟨hx, b, h1, h2⟩

/-- The first step of a trace that links up starts where the trace does. -/
theorem Links.head : ∀ {a : σ} {l : List β}, Links src tgt a l b → ∀ y ∈ l.head?, src y = a
  | _, [], _ => by simp
  | _, _ :: _, h => by
    intro y hy
    simp only [List.head?_cons, Option.mem_def, Option.some.injEq] at hy
    exact hy ▸ h.1

/-- Each step of a trace that links up starts where the one before it ended. -/
theorem Links.isChain : ∀ {a : σ} {l : List β}, Links src tgt a l b →
    l.IsChain (fun x y => src y = tgt x)
  | _, [], _ => List.IsChain.nil
  | _, [_], _ => List.IsChain.singleton _
  | _, _ :: _ :: _, h => List.isChain_cons_cons.2 ⟨h.2.1, Links.isChain h.2⟩

/-- The last step of a trace that links up ends where the trace does. -/
theorem Links.getLast : ∀ {a : σ} {l : List β}, Links src tgt a l b → ∀ y ∈ l.getLast?, tgt y = b
  | _, [], _ => by simp
  | _, [_], h => by
    simp only [links_cons, links_nil] at h
    simpa using h.2
  | _, _ :: y :: l, h => by
    rw [List.getLast?_cons_cons]
    exact Links.getLast h.2

end Links

end WeaveNet.Lib
