/-
# Who asked for a frame

`mhWaiting` is set for a PMR without page or a PUR that did not get the latch, and
the request is repeated until it does or comes too late.  So whenever the flag is
set, some worker is still waiting for the frame.
-/

import ScaleStore.Protocol.LocalSteps

namespace ScaleStore.Protocol

variable {W C : Type} {cfg : Config} {o : NodeID} {node : W → NodeID} {s s' : PageState W C}

/-- The worker waits for the node `n` to give its frame up, and already has the page. -/
def Pc.wants (n : NodeID) : Pc C → Bool
  | .invalidate _ _ _ pending => pending.test n
  | _ => false

/-- The handler of the node `n` has still to answer a request of the worker for which it may set
`mhWaiting`: a PMR without page, or on the owner `o` a PUR. -/
def Pc.asks (o n : NodeID) : Pc C → Bool
  | .invalidate _ _ _ pending => pending.test n
  | .update _ _ => decide (n = o)
  | _ => false

theorem Pc.asks_of_wants {n : NodeID} {p : Pc C} (h : p.wants n = true) : p.asks o n = true := by
  cases p <;> first | exact h | cases h

theorem Pc.wants_of_asks {n : NodeID} {p : Pc C} (h : p.asks o n = true) (hn : n ≠ o) :
    p.wants n = true := by
  cases p with
  | invalidate => exact h
  | update => exact absurd (of_decide_eq_true h) hn
  | _ => cases h

/-! ## Steps and flags -/

/-- A frame that is flagged afterwards is asked for, or it was flagged before and nobody who asked
for it has been answered. -/
def KeepsFlags (o : NodeID) (s s' : PageState W C) : Prop :=
  ∀ n f', s'.frame n = some f' → f'.mhWaiting = true → (∃ w, (s'.pc w).asks o n = true) ∨
    ∃ f, s.frame n = some f ∧ f.mhWaiting = true ∧
      ∀ w, (s.pc w).asks o n = true → (s'.pc w).asks o n = true

namespace KeepsFlags

theorem mono
    (hf : ∀ n f', s'.frame n = some f' → f'.mhWaiting = true →
      ∃ f, s.frame n = some f ∧ f.mhWaiting = true)
    (hpc : ∀ n w, (s.pc w).asks o n = true → (s'.pc w).asks o n = true) : KeepsFlags o s s' := by
  intro n f' hf' hm
  obtain ⟨f, hfr, hmf⟩ := hf n f' hf' hm
  exact .inr ⟨f, hfr, hmf, hpc n⟩

theorem frame {m : NodeID} {fr : Option (Frame W C)} {k : Nat}
    (hfr : ∀ f', fr = some f' → f'.mhWaiting = true →
      ∃ f, s.frame m = some f ∧ f.mhWaiting = true) : KeepsFlags o s (s.setFrame m fr k) := by
  apply mono
  · intro n f' hf' hm
    by_cases hnm : n = m
    · subst hnm
      exact hfr f' (by simpa using hf') hm
    · exact ⟨f', by simpa [hnm] using hf', hm⟩
  · exact fun _ _ hw => hw

theorem congr {s₁ : PageState W C} (h : KeepsFlags o s s₁) (hf : s'.frame = s₁.frame)
    (hpc : s'.pc = s₁.pc) : KeepsFlags o s s' := by
  intro n f hf' hm
  rw [hf] at hf'
  rw [hpc]
  exact h n f hf' hm

theorem keep {m : NodeID} {f f' : Frame W C} {k : Nat} (hf : s.frame m = some f)
    (hm : f'.mhWaiting = f.mhWaiting) : KeepsFlags o s (s.setFrame m (some f') k) := by
  apply frame
  rintro _ ⟨rfl⟩ hm'
  exact ⟨f, hf, hm ▸ hm'⟩

section Worker

variable [DecidableEq W] {w : W} {p : Pc C}

/-- A worker that asks for nothing goes on. -/
theorem goes {s₁ : PageState W C} (h : KeepsFlags o s s₁) (hpc : s₁.pc = s.pc)
    (hw : ∀ n, (s.pc w).asks o n = false) : KeepsFlags o s (s₁.setPc w p) := by
  have hsame : ∀ n w', (s.pc w').asks o n = true → ((s₁.setPc w p).pc w').asks o n = true := by
    intro n w' hw'
    have hne : w' ≠ w := by
      rintro rfl
      simp [hw n] at hw'
    simpa [hne, hpc] using hw'
  intro n f' hf' hm
  rcases h n f' hf' hm with ⟨w', hw'⟩ | ⟨f, hf, hmf, -⟩
  · exact .inl ⟨w', hsame n w' (by simpa [hpc] using hw')⟩
  · exact .inr ⟨f, hf, hmf, hsame n⟩

theorem pc (hw : ∀ n, (s.pc w).asks o n = false) : KeepsFlags o s (s.setPc w p) :=
  goes (mono (fun _ f' hf' hm => ⟨f', hf', hm⟩) fun _ _ h => h) rfl hw

theorem own {m : NodeID} {f : Frame W C} {fr : Option (Frame W C)} {k : Nat}
    (hf : s.frame m = some f) (hfr : ∀ f', fr = some f' → f'.mhWaiting = f.mhWaiting)
    (hw : ∀ n, (s.pc w).asks o n = false) :
    KeepsFlags o s ((s.setFrame m fr k).setPc w p) := by
  refine goes (frame ?_) rfl hw
  intro f' hf' hmh
  exact ⟨f, hf, by rw [← hfr f' hf', hmh]⟩

/-- A handler changes the frame of `m` and answers a worker that asks for nothing. -/
theorem answer {m : NodeID} {f own own' : Frame W C} {fr : Option (Frame W C)} {k k' : Nat}
    (hf : s.frame m = some f) (hfr : ∀ f', fr = some f' → f'.mhWaiting = f.mhWaiting)
    (hown : s.frame (node w) = some own) (hown' : own'.mhWaiting = own.mhWaiting)
    (hw : ∀ n, (s.pc w).asks o n = false) :
    KeepsFlags o s (((s.setFrame m fr k).setFrame (node w) (some own') k').setPc w p) := by
  refine goes (mono ?_ fun _ _ h => h) rfl hw
  intro n f' hf' hm
  by_cases hnw : n = node w
  · subst hnw
    obtain rfl : own' = f' := by simpa using hf'
    exact ⟨own, hown, hown' ▸ hm⟩
  · by_cases hnm : n = m
    · subst hnm
      exact ⟨f, hf, by rw [← hfr f' (by simpa [hnw] using hf'), hm]⟩
    · exact ⟨f', by simpa [hnw, hnm] using hf', hm⟩

/-- The owner answers a PUR, and clears the flag. -/
theorem updated {t : Access} {old k : Nat} {f' : Frame W C} (hpc : s.pc w = .update t old)
    (hm : f'.mhWaiting = false) : KeepsFlags o s ((s.setFrame o (some f') k).setPc w p) := by
  intro n f₁ hf₁ hm₁
  have hn : n ≠ o := by
    rintro rfl
    obtain rfl : f' = f₁ := by simpa using hf₁
    simp [hm] at hm₁
  refine .inr ⟨f₁, by simpa [hn] using hf₁, hm₁, fun w' hw' => ?_⟩
  have hne : w' ≠ w := by
    rintro rfl
    simp [hpc, Pc.asks, hn] at hw'
  simpa [hne] using hw'

end Worker

end KeepsFlags

theorem LocalChange.mhWaiting {f f' : Frame W C} {t : Access} {plan : Plan}
    (h : LocalChange o t f plan f') : f'.mhWaiting = f.mhWaiting := by
  cases h <;> rfl

theorem Grant.mhWaiting {m : NodeID} {f f' : Frame W C} {d : Possession} {r : Reply C}
    (h : Grant o m f d r f') : f'.mhWaiting = f.mhWaiting := by
  cases h <;> rfl

theorem Answer.mhWaiting {ssd : Bool} {n : NodeID} {x : C} {f f' : Frame W C} {ev : Eviction W C}
    (h : Answer ssd o n x f ev) (hev : ev.frame = some f') : f'.mhWaiting = f.mhWaiting := by
  cases h with
  | remove => cases hev
  | _ => exact Option.some.inj hev ▸ rfl

theorem OwnerEviction.mhWaiting {ssd : Bool} {f f' : Frame W C} {ev : Eviction W C}
    (h : OwnerEviction o ssd f ev) (hev : ev.frame = some f') : f'.mhWaiting = f.mhWaiting := by
  cases h with
  | remove => cases hev
  | _ => exact Option.some.inj hev ▸ rfl

theorem Frame.forget_mhWaiting (f : Frame W C) (g : GuardState) (c : NodeID) :
    (f.forget g c).mhWaiting = f.mhWaiting := by
  unfold Frame.forget
  split
  · split <;> rfl
  · rfl

theorem WorkerStep.keepsFlags [DecidableEq W] (st : WorkerStep cfg o node s s') :
    KeepsFlags o s s' := by
  cases st with
  | start _ hpc => exact .pc (by simp [hpc, Pc.asks])
  | insert c hpc hf =>
    refine .goes (.frame ?_) rfl (by simp [hpc, Pc.asks])
    rintro _ ⟨rfl⟩ hm
    cases hm
  | peek hpc | retry hpc | hitOptimistic hpc | downgradeFailed hpc | updateDone hpc
  | updateConflict hpc | copyAgain hpc | releaseOptimistic hpc =>
    exact .pc (by simp [hpc, Pc.asks])
  | read c hpc => exact .pc (by simp [hpc, Pc.asks])
  | undo hf => exact .keep hf rfl
  | hitExclusive hpc hf | hitShared hpc hf | load hpc hf | receive hpc hf | downgraded hpc hf
  | updateFailed hpc hf | copyAbandoned hpc hf | copyAbandonedLocal hpc hf
  | releaseExclusive hpc hf | releaseShared hpc hf | exclusiveToShared hpc hf
  | exclusiveToOptimistic hpc hf | sharedToOptimistic hpc hf | optimisticToShared hpc hf =>
    exact .own hf (by rintro _ ⟨rfl⟩; rfl) (by simp [hpc, Pc.asks])
  | changeLocal c hpc hf _ _ hfun hc =>
    obtain rfl := (Access.functor_local hfun).1
    have hm := (Frame.localChange_ok hc).1.mhWaiting
    exact .own hf (by rintro _ ⟨rfl⟩; exact hm) (by simp [hpc, Pc.asks])
  | changeRemote hpc hf _ _ _ hc =>
    obtain ⟨-, -, -, rfl⟩ := Frame.remoteChange_ok hc
    exact .own hf (by rintro _ ⟨rfl⟩; rfl) (by simp [hpc, Pc.asks])
  | completeExclusive hpc hf hc | completeShared hpc hf hc | completeOptimistic hpc hf hc
  | completeDiscarded hpc hf hc =>
    rw [Frame.complete_eq] at hc
    obtain rfl := Except.ok.inj hc
    exact .own hf (by rintro _ ⟨rfl⟩; rfl) (by simp [hpc, Pc.asks])
  | @write w f c hpc hf =>
    have h' : KeepsFlags o s (s.setFrame (node w) (some { f with page := some c }) 0) :=
      .keep hf rfl
    exact h'.congr rfl rfl
  | @newPage w c _ hpc =>
    have h' : KeepsFlags o s ((s.setFrame o (some (newFrame o w c)) 2).setPc w .guardX) := by
      refine .goes (.frame ?_) rfl (by simp [hpc, Pc.asks])
      rintro _ ⟨rfl⟩ hm
      cases hm
    exact h'.congr rfl rfl
  | @allocate w c hpc =>
    have h' : KeepsFlags o s
        ((s.setFrame (node w) (some (newFrame (node w) w c)) 2).setPc w .guardX) := by
      refine .goes (.frame ?_) rfl (by simp [hpc, Pc.asks])
      rintro _ ⟨rfl⟩ hm
      cases hm
    exact h'.congr rfl rfl
  | reclaimPage _ hpc hf => exact .own hf (by simp) (by simp [hpc, Pc.asks])

/-- A worker that goes on to invalidate the rest still wants everybody else. -/
theorem Enters.wants {n c m : NodeID} {g : GuardState} {t : Access} {e : Nat}
    {pending : Possessors} {p : Pc C} (h : Enters n g t e (.invalidate (pending.reset c)) p)
    (hm : pending.test m = true) (hne : m ≠ c) : p.wants m = true := by
  have hr : (pending.reset c).test m = true := by simp [hm, hne]
  cases h with
  | invalidate => exact hr
  | none hany =>
    rw [Possessors.any_eq_false_iff] at hany
    have := Possessors.mem_members.mpr hr
    simp [hany] at this

/-- No worker asks its own node for a frame that nobody has latched. -/
def Aside (node : W → NodeID) (s : PageState W C) : Prop :=
  ∀ w n f, (s.pc w).wants n = true → s.frame n = some f → f.Latchable → n ≠ node w

theorem Nodes.aside (h : Nodes o node s) : Aside node s := by
  intro w n f hw hf hl
  refine h.ne_of_latchable ?_ hf hl
  cases hpc : s.pc w with
  | invalidate => rfl
  | _ => simp [hpc, Pc.wants] at hw

theorem HandlerStep.keepsFlags [DecidableEq W] (h : Aside node s)
    (st : HandlerStep o node s s') : KeepsFlags o s s' := by
  cases st with
  | requestLoad =>
    refine .frame ?_
    rintro _ ⟨rfl⟩ hm
    cases hm
  | loaded hf => exact .keep hf rfl
  | request hpc hf _ hr hown =>
    have hm := (Frame.handlePossessionRequest_grant hr).mhWaiting
    exact .answer hf (by rintro _ ⟨rfl⟩; exact hm) hown rfl (by simp [hpc, Pc.asks])
  | move hpc hf _ _ hown =>
    exact .answer hf (by simp) hown (Frame.forget_mhWaiting _ _ _) (by simp [hpc, Pc.asks])
  | @invalidate w g t e pending c f x own p hpc hp hf hl _ hown hent =>
    have hc := h w c f (by simpa [hpc, Pc.wants] using hp) hf hl
    intro n f' hf' hm
    have hnc : n ≠ c := by
      rintro rfl
      simp [hc] at hf'
    have hold : ∃ f₀, s.frame n = some f₀ ∧ f₀.mhWaiting = true := by
      by_cases hnw : n = node w
      · subst hnw
        obtain rfl : own.forget g c = f' := by simpa using hf'
        exact ⟨own, hown, by rw [← hm, Frame.forget_mhWaiting]⟩
      · exact ⟨f', by simpa [hnc, hnw] using hf', hm⟩
    obtain ⟨f₀, hf₀, hm₀⟩ := hold
    refine .inr ⟨f₀, hf₀, hm₀, fun w' hw' => ?_⟩
    by_cases hww : w' = w
    · subst hww
      rw [hpc] at hw'
      simpa using Pc.asks_of_wants (hent.wants hw' hnc)
    · simpa [hww] using hw'
  | @invalidateRetry w g t e pending c f hpc hp hf =>
    intro n f' hf' hm
    by_cases hnc : n = c
    · subst hnc
      exact .inl ⟨w, by simpa [hpc, Pc.asks] using hp⟩
    · exact .inr ⟨f', by simpa [hnc] using hf', hm, fun _ hw => hw⟩
  | copy hpc _ _ _ hown => exact .own hown (by rintro _ ⟨rfl⟩; rfl) (by simp [hpc, Pc.asks])
  | copyFailed hpc => exact .pc (by simp [hpc, Pc.asks])
  | update hpc _ _ hu =>
    obtain ⟨-, -, -, -, rfl⟩ := Frame.handleUpdate_ok hu
    exact .updated hpc rfl
  | updateFailed hpc => exact .updated hpc rfl
  | @updateRetry w t old f hpc hf =>
    intro n f' hf' hm
    by_cases hno : n = o
    · subst hno
      exact .inl ⟨w, by simp [hpc, Pc.asks]⟩
    · exact .inr ⟨f', by simpa [hno] using hf', hm, fun _ hw => hw⟩
  | @allocation w _ hpc =>
    refine .goes (.frame ?_) rfl (by simp [hpc, Pc.asks])
    rintro _ ⟨rfl⟩ hm
    cases hm

theorem ProviderStep.keepsFlags (st : ProviderStep cfg o s s') : KeepsFlags o s s' := by
  cases st with
  | @select n f _ _ hf =>
    have h' : KeepsFlags o s (s.setFrame n (some { f with holder := some .provider }) 2) :=
      .keep hf rfl
    exact h'.congr rfl rfl
  | refuse | overlooked => exact .mono (fun _ f' hf' hm => ⟨f', hf', hm⟩) fun _ _ h => h
  | @accept n v f ev c _ hf _ _ _ ha =>
    have h' : KeepsFlags o s (s.setFrame o ev.frame ev.bump) :=
      .frame fun f' hev hm => ⟨f, hf, (Frame.answerEviction_ok ha).mhWaiting hev ▸ hm⟩
    exact h'.congr rfl rfl
  | @landed n f g x _ hf =>
    have h' : KeepsFlags o s (s.setFrame o (some { f with page := some x }) 0) := .keep hf rfl
    exact h'.congr rfl rfl
  | retrieved hf => exact .keep hf rfl
  | @applyAcked n | @applyStale n =>
    have h' : KeepsFlags o s (s.setFrame n none 2) := .frame (by simp)
    exact h'.congr rfl rfl
  | @applyRefused n f _ hf =>
    have h' : KeepsFlags o s (s.setFrame n (some { f with holder := none }) 2) := .keep hf rfl
    exact h'.congr rfl rfl
  | @evictOwner f ev dice _ hf _ _ hc =>
    exact .frame fun f' hev hm => ⟨f, hf, (Frame.evictOwnerPage_ok hc).mhWaiting hev ▸ hm⟩
  | @writeBack f x _ _ hf =>
    have h' : KeepsFlags o s (s.setFrame o (some { f with dirty := false }) 0) := .keep hf rfl
    exact h'.congr rfl rfl

theorem PageStep.keepsFlags [DecidableEq W] (h : Aside node s) (st : PageStep cfg o node s s') :
    KeepsFlags o s s' := by
  cases st with
  | step st =>
    cases st with
    | worker st => exact st.keepsFlags
    | handler st => exact st.keepsFlags h
    | provider st => exact st.keepsFlags
  | overwritten st =>
    obtain @⟨f, c, hf, -⟩ := st
    exact .keep hf rfl

/-! ## Other nodes than the owner -/

/-- A frame of another node than the owner is flagged only while a worker wants it to go. -/
def Waits (o : NodeID) (s : PageState W C) : Prop :=
  ∀ n f, n ≠ o → s.frame n = some f → f.mhWaiting = true → ∃ w, (s.pc w).wants n = true

namespace Waits

theorem step (h : Waits o s) (hs : KeepsFlags o s s') : Waits o s' := by
  intro n f' hn hf' hm
  rcases hs n f' hf' hm with ⟨w, hw⟩ | ⟨f, hf, hmf, hpc⟩
  · exact ⟨w, Pc.wants_of_asks hw hn⟩
  · obtain ⟨w, hw⟩ := h n f hn hf hmf
    exact ⟨w, Pc.wants_of_asks (hpc w (Pc.asks_of_wants hw)) hn⟩

theorem frame {m : NodeID} {fr : Option (Frame W C)} {k : Nat} (h : Waits o s)
    (hfr : m ≠ o → ∀ f', fr = some f' → f'.mhWaiting = true →
      ∃ f, s.frame m = some f ∧ f.mhWaiting = true) : Waits o (s.setFrame m fr k) := by
  intro n f' hn hf' hm
  by_cases hnm : n = m
  · subst hnm
    obtain ⟨f, hf, hmf⟩ := hfr hn f' (by simpa using hf') hm
    exact h n f hn hf hmf
  · exact h n f' hn (by simpa [hnm] using hf') hm

theorem pc [DecidableEq W] {w : W} {p : Pc C} (h : Waits o s)
    (hw : ∀ n, (s.pc w).wants n = false) : Waits o (s.setPc w p) := by
  intro n f hn hf hm
  obtain ⟨w', hw'⟩ := h n f hn hf hm
  have hne : w' ≠ w := by
    rintro rfl
    simp [hw n] at hw'
  exact ⟨w', by simpa [hne] using hw'⟩

theorem congr (h : Waits o s) (hf : s'.frame = s.frame) (hpc : s'.pc = s.pc) : Waits o s' := by
  intro n f hn hf' hm
  rw [hf] at hf'
  rw [hpc]
  exact h n f hn hf' hm

end Waits

theorem PageStep.waits [DecidableEq W] (hn : Nodes o node s) (h : Waits o s)
    (st : PageStep cfg o node s s') : Waits o s' :=
  h.step (st.keepsFlags hn.aside)

end ScaleStore.Protocol
