import HashStorm.Lib.Machine

/-!
# Orders on a shared draft

Orders are taken one after the other and edit one draft; what an order is
delivered is made of the draft later, when others may have edited it. Every
delivery is right if no order spoils the draft for those that are waiting.
-/

namespace HashStorm.Draft

open Machine

variable {δ σ γ β : Type*}

/-- How an order edits the draft, and what ticket it is given, if any; and what is made of the
draft for a ticket. -/
structure Desk (δ σ γ β : Type*) where
  take : δ → σ → Option γ × δ
  make : δ → γ → β

/-- The draft, the tickets that wait and what was delivered for the others. -/
structure State (δ γ β : Type*) where
  draft : δ
  waiting : List γ
  delivered : List (γ × β)

/-- Nothing was ordered. -/
def State.initial (draft : δ) : State δ γ β := ⟨draft, [], []⟩

/-- An order is taken, or one of the waiting tickets is served. -/
inductive Op (σ : Type*) where
  | take (order : σ)
  | deliver (ticket : Nat)

/-- One step; only a waiting ticket is served. -/
def step (desk : Desk δ σ γ β) (s : State δ γ β) : Op σ → Option (State δ γ β)
  | .take order =>
    let (ticket, draft) := desk.take s.draft order
    some { s with draft := draft, waiting := ticket.toList ++ s.waiting }
  | .deliver ticket =>
    s.waiting[ticket]?.map fun c =>
      { s with
        waiting := s.waiting.eraseIdx ticket
        delivered := (c, desk.make s.draft c) :: s.delivered }

/-- The draft is sound, and right for every ticket that waits, and so was every delivery. -/
structure Right (desk : Desk δ σ γ β) (sound : δ → Prop) (own : γ → β → Prop)
    (s : State δ γ β) : Prop where
  sound : sound s.draft
  waiting : ∀ c ∈ s.waiting, own c (desk.make s.draft c)
  delivered : ∀ d ∈ s.delivered, own d.1 d.2

variable {desk : Desk δ σ γ β} {sound : δ → Prop} {own : γ → β → Prop}

/-- Every delivery is right if orders keep the draft sound and right for their own tickets, and
those of the run keep it right for the tickets that wait. -/
theorem delivered_own {ok : State δ γ β → Op σ → Prop}
    (hsound : ∀ d order, sound d → sound (desk.take d order).2)
    (htake : ∀ d order c, sound d → (desk.take d order).1 = some c →
      own c (desk.make (desk.take d order).2 c))
    (hkeep : ∀ s order, sound s.draft → ok s (.take order) → ∀ c ∈ s.waiting,
      own c (desk.make s.draft c) → own c (desk.make (desk.take s.draft order).2 c))
    {draft : δ} (hdraft : sound draft) {ops : List (Op σ)} {s : State δ γ β}
    (hok : Meets (step desk) ok (.initial draft) ops)
    (hrun : run (step desk) (.initial draft) ops = some s) : ∀ d ∈ s.delivered, own d.1 d.2 := by
  have hright : Right desk sound own s := by
    refine run_invariant (Right desk sound own) ?_ ⟨hdraft, ?_, ?_⟩ hok hrun
    · intro s op s' hs hop hstep
      cases op with
      | take order =>
        cases hstep
        refine ⟨hsound _ _ hs.sound, fun c hc => ?_, hs.delivered⟩
        rcases List.mem_append.mp hc with hnew | hold
        · exact htake _ _ c hs.sound (Option.mem_toList.mp hnew)
        · exact hkeep s order hs.sound hop c hold (hs.waiting c hold)
      | deliver ticket =>
        obtain ⟨c, hc, rfl⟩ := Option.map_eq_some_iff.mp hstep
        refine ⟨hs.sound, fun d hd => hs.waiting d (List.mem_of_mem_eraseIdx hd), fun d hd => ?_⟩
        rcases List.mem_cons.mp hd with rfl | hd
        · exact hs.waiting c (List.mem_of_getElem? hc)
        · exact hs.delivered d hd
    · simp [State.initial]
    · simp [State.initial]
  exact hright.delivered

end HashStorm.Draft
