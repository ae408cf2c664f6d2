/-
# Linking and unlinking frames

The two writes that change a chain.  A frame from the free list becomes the last
one of its bucket; a frame that is removed leaves its bucket and stays in the hands
of the thread that removes it.
-/

import ScaleStore.PageTable.Writes

namespace ScaleStore.PageTable

variable {K F T : Type} [DecidableEq F] [DecidableEq T] {L : Layout K F}
  {chain : F → List F} {s : State K F T} {t : T} {p p' : Pc K F}

/-- `try_pop(*slot)` at the end of the chain of `b`. -/
theorem Ok.link (h : Ok L chain s) (hp : s.pc t = p) {b slot f : F} {pre : List F}
    (hht : L.isHtBucket b = true) (hb : p.bucketHeld L = some b)
    (hcells : cells chain b = pre ++ [slot]) (hf : f ∈ s.frameFreeList)
    (hhand : p.hand L = none) (hadmits : Admits L s t p')
    (hbucket : ∀ b, p'.bucketHeld L = some b → p.bucketHeld L = some b)
    (hown : Own L (Function.update chain b (chain b ++ [f]))
      ({ s with frameFreeList := s.frameFreeList.erase f }.setNext slot (some f)) t p') :
    Ok L (Function.update chain b (chain b ++ [f]))
      (({ s with frameFreeList := s.frameFreeList.erase f }.setNext slot (some f)).go t p') := by
  obtain ⟨hfht, hfchain, hfpid, hfnext⟩ := h.shape.listed f hf
  have hslot : slot ∈ cells chain b := by simp [hcells]
  have hfcells : f ∉ cells chain b := fun hin => h.shape.not_listed hht hin hf
  have hslotb : ∀ b', L.isHtBucket b' = true → slot ∈ cells chain b' → b' = b :=
    fun b' hht' hin => h.shape.cells_disjoint hht' hht hin hslot
  have hself : Function.update chain b (chain b ++ [f]) b = chain b ++ [f] :=
    Function.update_self ..
  have hother : ∀ b', b' ≠ b → Function.update chain b (chain b ++ [f]) b' = chain b' :=
    fun b' hne => Function.update_of_ne hne _ _
  have hmono : ∀ g b', g ∈ chain b' → g ∈ Function.update chain b (chain b ++ [f]) b' := by
    intro g b' hg
    by_cases hbb : b' = b
    · subst hbb
      rw [hself]
      exact List.mem_append_left _ hg
    · rwa [hother b' hbb]
  -- nothing but `f` is new
  have hnew : ∀ g b', g ∈ Function.update chain b (chain b ++ [f]) b' →
      g ∈ chain b' ∨ (g = f ∧ b' = b) := by
    intro g b' hg
    by_cases hbb : b' = b
    · subst hbb
      rw [hself] at hg
      rcases List.mem_append.mp hg with hg | hg
      · exact .inl hg
      · exact .inr ⟨List.mem_singleton.mp hg, rfl⟩
    · rw [hother b' hbb] at hg
      exact .inl hg
  have hnewcells : ∀ g b', g ∈ cells (Function.update chain b (chain b ++ [f])) b' →
      g ∈ cells chain b' ∨ g = f := by
    intro g b' hg
    rcases List.mem_cons.mp hg with rfl | hg
    · exact .inl List.mem_cons_self
    · rcases hnew g b' hg with hg | ⟨hg, _⟩
      · exact .inl (List.mem_cons_of_mem _ hg)
      · exact .inr hg
  have hnext : ∀ g, g ≠ slot → Function.update s.next slot (some f) g = s.next g :=
    fun g hne => Function.update_of_ne hne _ _
  refine h.write hp ⟨rfl, rfl, rfl, ?_, fun g _ => ⟨rfl, hmono g⟩, ?_⟩ rfl hadmits ?_ ?_ hbucket
    (fun _ _ hk => hk) ?_
  · intro b' _ hne
    refine ⟨hother b' ?_, fun _ _ => rfl, rfl⟩
    rintro rfl
    exact hne (hp ▸ hb)
  · intro g hg _
    refine ⟨⟨hg.1, fun b' hin => ?_, fun hin => hg.2.2 (List.mem_of_mem_erase hin)⟩, rfl,
      hnext g ?_⟩
    · rcases hnew g b' hin with hin | ⟨rfl, _⟩
      · exact hg.2.1 b' hin
      · exact hg.2.2 hf
    · rintro rfl
      exact hg.not_linked hht hslot
  · obtain ⟨h1, h2, h3, h4, h5, h6, h7, h8, h9, h10⟩ := h.shape
    refine ⟨?_, ?_, ?_, ?_, ?_, ?_, ?_, h8.erase f, h9, h10⟩
    · intro b' hht'
      by_cases hbb : b' = b
      · subst hbb
        have hnodup : (pre ++ [slot]).Nodup := hcells ▸ h.shape.cells_nodup b'
        have hcells' : cells (Function.update chain b' (chain b' ++ [f])) b' =
            (pre ++ [slot]) ++ [f] := by
          rw [cells, hself, ← hcells]
          rfl
        rw [hcells']
        refine Chain.link (hcells ▸ h1 b' hht') ?_ (hcells ▸ hfcells) hfnext
        intro hin
        exact List.disjoint_of_nodup_append hnodup hin (List.mem_singleton.mpr rfl)
      · rw [cells, hother b' hbb]
        exact (Chain.update_iff fun hin => hbb (hslotb b' hht' hin)).mpr (h1 b' hht')
    · intro b'
      by_cases hbb : b' = b
      · subst hbb
        rw [hself]
        refine List.nodup_append.mpr ⟨h2 b', List.nodup_singleton f, fun x hx y hy hxy => ?_⟩
        rw [List.mem_singleton] at hy
        exact hfchain b' (hy ▸ hxy ▸ hx)
      · rw [hother b' hbb]
        exact h2 b'
    · intro b' g hg
      rcases hnew g b' hg with hg | ⟨rfl, rfl⟩
      · exact h3 b' g hg
      · exact ⟨hht, hfht⟩
    · intro b₁ b₂ g hg₁ hg₂
      rcases hnew g b₁ hg₁ with hin₁ | ⟨rfl, rfl⟩
      · rcases hnew g b₂ hg₂ with hin₂ | ⟨rfl, rfl⟩
        · exact h4 b₁ b₂ g hin₁ hin₂
        · exact absurd hin₁ (hfchain b₁)
      · rcases hnew g b₂ hg₂ with hin₂ | ⟨_, rfl⟩
        · exact absurd hin₂ (hfchain b₂)
        · rfl
    · intro b' g k hht' hg hk
      rcases hnewcells g b' hg with hg | rfl
      · exact h5 b' g k hht' hg hk
      · cases hfpid.symm.trans hk
    · intro k g₁ g₂ hg₁ hg₂ hk₁ hk₂
      rcases hnewcells g₁ _ hg₁ with hg₁ | rfl
      · rcases hnewcells g₂ _ hg₂ with hg₂ | rfl
        · exact h6 k g₁ g₂ hg₁ hg₂ hk₁ hk₂
        · cases hfpid.symm.trans hk₂
      · cases hfpid.symm.trans hk₁
    · intro g hg
      obtain ⟨hne, hin⟩ := (h8.mem_erase_iff).mp hg
      obtain ⟨hg1, hg2, hg3, hg4⟩ := h7 g hin
      refine ⟨hg1, fun b' hin' => ?_, hg3, (hnext g ?_).trans hg4⟩
      · rcases hnew g b' hin' with hin' | ⟨hgf, _⟩
        · exact hg2 b' hin'
        · exact hne hgf
      · rintro rfl
        exact h.shape.not_listed hht hslot hin
  · cases p' <;> exact hown
  · subst hp
    refine h.mapped_of_same rfl ?_ (fun _ _ hk => hk) (fun _ _ _ hf => hf) ?_
    · intro g k _ hg
      rcases List.mem_cons.mp hg with heq | hg
      · exact List.mem_cons.mpr (.inl heq)
      · exact List.mem_cons_of_mem _ (hmono g _ hg)
    · intro g k _ hg
      cases hhand.symm.trans hg

/-- `*f = (*f)->next`. -/
theorem Ok.unlink (h : Ok L chain s) (hp : s.pc t = p) {b slot f : F} {k : K} {pre suf : List F}
    (hht : L.isHtBucket b = true) (hb : p.bucketHeld L = some b) (hholder : s.holder f = some t)
    (hfht : L.isHtBucket f = false) (hcells : cells chain b = pre ++ f :: suf)
    (hslot : pre.getLast? = some slot) (hk : s.pid f = some k) (hhand : p.hand L = none)
    (hhand' : p'.hand L = some f) (hcalls : p'.calls = none) (hinserts : p'.inserts = none)
    (hunwritten : p'.unwritten = none)
    (hbucket : ∀ b, p'.bucketHeld L = some b → p.bucketHeld L = some b)
    (hown : InHand L (Function.update chain b ((chain b).erase f)) (s.setNext slot suf.head?) f →
      Own L (Function.update chain b ((chain b).erase f)) (s.setNext slot suf.head?) t p') :
    Ok L (Function.update chain b ((chain b).erase f))
      ((s.setNext slot suf.head?).go t p') := by
  have hmem : f ∈ cells chain b := by simp [hcells]
  obtain ⟨pre, rfl⟩ : ∃ pre', pre = pre' ++ [slot] := by
    rcases List.eq_nil_or_concat pre with rfl | ⟨pre', x, rfl⟩
    · cases hslot
    · obtain rfl : x = slot := by simpa using hslot
      exact ⟨pre', by simp⟩
  have hslotin : slot ∈ cells chain b := by simp [hcells]
  have hnodup : ((pre ++ [slot]) ++ f :: suf).Nodup := hcells ▸ h.shape.cells_nodup b
  have hfpre : f ∉ pre ++ [slot] := fun hin =>
    List.disjoint_of_nodup_append hnodup hin List.mem_cons_self
  have hself : Function.update chain b ((chain b).erase f) b = (chain b).erase f :=
    Function.update_self ..
  have hother : ∀ b', b' ≠ b → Function.update chain b ((chain b).erase f) b' = chain b' :=
    fun b' hne => Function.update_of_ne hne _ _
  have hcells' : cells (Function.update chain b ((chain b).erase f)) b =
      (pre ++ [slot]) ++ suf := by
    have hne : f ≠ b := by
      rintro rfl
      exact absurd (hht.symm.trans hfht) (by simp)
    have hbeq : (b == f) = false := by simpa using Ne.symm hne
    have herase : cells (Function.update chain b ((chain b).erase f)) b =
        (cells chain b).erase f := by
      rw [cells, cells, hself, List.erase_cons, hbeq]
      rfl
    rw [herase, hcells, List.erase_append_right _ hfpre, List.erase_cons_head]
  have hsub : ∀ g b', g ∈ Function.update chain b ((chain b).erase f) b' → g ∈ chain b' := by
    intro g b' hg
    by_cases hbb : b' = b
    · subst hbb
      rw [hself] at hg
      exact List.mem_of_mem_erase hg
    · rwa [hother b' hbb] at hg
  have hsubcells : ∀ g b', g ∈ cells (Function.update chain b ((chain b).erase f)) b' →
      g ∈ cells chain b' := by
    intro g b' hg
    rcases List.mem_cons.mp hg with heq | hg
    · exact List.mem_cons.mpr (.inl heq)
    · exact List.mem_cons_of_mem _ (hsub g b' hg)
  have hstays : ∀ g b', g ≠ f → g ∈ chain b' →
      g ∈ Function.update chain b ((chain b).erase f) b' := by
    intro g b' hne hg
    by_cases hbb : b' = b
    · subst hbb
      rw [hself]
      exact (List.mem_erase_of_ne hne).mpr hg
    · rwa [hother b' hbb]
  have hnext : ∀ g, g ≠ slot → Function.update s.next slot suf.head? g = s.next g :=
    fun g hne => Function.update_of_ne hne _ _
  have hinhand : InHand L (Function.update chain b ((chain b).erase f))
      (s.setNext slot suf.head?) f := by
    refine ⟨hfht, fun b' hin => ?_, h.shape.not_listed hht hmem⟩
    have hbb : b' = b := by
      refine h.shape.cells_disjoint (h.shape.chained b' f (hsub f b' hin)).1 hht ?_ hmem
      exact List.mem_cons_of_mem _ (hsub f b' hin)
    subst hbb
    rw [hself] at hin
    exact ((h.shape.nodup b').mem_erase_iff.mp hin).1 rfl
  have hadmits : Admits L s t p' := by
    refine ⟨?_, by simp [hcalls], by simp [hinserts], by simp [hunwritten]⟩
    intro g hg t' _ hg'
    obtain rfl := Option.some.inj (hhand'.symm.trans hg)
    exact ((h.own t').inHand hg').not_linked hht hmem
  refine h.write hp ⟨rfl, rfl, rfl, ?_, ?_, ?_⟩ rfl hadmits ?_ ?_ hbucket (fun _ _ hk => hk) ?_
  · intro b' _ hne
    refine ⟨hother b' ?_, fun _ _ => rfl, rfl⟩
    rintro rfl
    exact hne (hp ▸ hb)
  · intro g hg
    refine ⟨rfl, fun b' => hstays g b' ?_⟩
    rintro rfl
    exact hg hholder
  · intro g hg _
    refine ⟨⟨hg.1, fun b' hin => hg.2.1 b' (hsub g b' hin), hg.2.2⟩, rfl, hnext g ?_⟩
    rintro rfl
    exact hg.not_linked hht hslotin
  · obtain ⟨h1, h2, h3, h4, h5, h6, h7, h8, h9, h10⟩ := h.shape
    refine ⟨?_, ?_, fun b' g hg => h3 b' g (hsub g b' hg),
      fun b₁ b₂ g hg₁ hg₂ => h4 b₁ b₂ g (hsub g b₁ hg₁) (hsub g b₂ hg₂),
      fun b' g k hht' hg hk => h5 b' g k hht' (hsubcells g b' hg) hk,
      fun k g₁ g₂ hg₁ hg₂ => h6 k g₁ g₂ (hsubcells g₁ _ hg₁) (hsubcells g₂ _ hg₂), ?_, h8, h9,
      h10⟩
    · intro b' hht'
      by_cases hbb : b' = b
      · subst hbb
        rw [hcells']
        obtain ⟨hslotpre, hslotsuf⟩ : slot ∉ pre ∧ slot ∉ suf := by
          simp [List.nodup_append] at hnodup
          grind
        exact Chain.unlink (hcells ▸ h1 b' hht') hslotpre hslotsuf
      · rw [cells, hother b' hbb]
        refine (Chain.update_iff fun hin => hbb ?_).mpr (h1 b' hht')
        exact h.shape.cells_disjoint hht' hht hin hslotin
    · intro b'
      by_cases hbb : b' = b
      · subst hbb
        rw [hself]
        exact (h2 b').erase f
      · rw [hother b' hbb]
        exact h2 b'
    · intro g hg
      obtain ⟨hg1, hg2, hg3, hg4⟩ := h7 g hg
      refine ⟨hg1, fun b' hin => hg2 b' (hsub g b' hin), hg3, (hnext g ?_).trans hg4⟩
      rintro rfl
      exact h.shape.not_listed hht hslotin hg
  · have hown := hown hinhand
    cases p' <;> exact hown
  · intro g k' hg
    by_cases hgf : g = f
    · subst hgf
      have hpc : ((s.setNext slot suf.head?).go t p').pc t = p' := Function.update_self ..
      refine .inr ⟨t, ?_, hholder⟩
      rw [hpc]
      exact hhand'
    · rcases h.together.mapped g k' hg with hin | ⟨t', hhand'', hh⟩
      · refine .inl ?_
        rcases List.mem_cons.mp hin with heq | hin
        · exact List.mem_cons.mpr (.inl heq)
        · exact List.mem_cons_of_mem _ (hstays g _ hgf hin)
      · have ht : t' ≠ t := by
          rintro rfl
          cases hhand.symm.trans (hp ▸ hhand'')
        have hpc : ((s.setNext slot suf.head?).go t p').pc t' = s.pc t' :=
          Function.update_of_ne ht _ _
        refine .inr ⟨t', ?_, hh⟩
        rw [hpc]
        exact hhand''

end ScaleStore.PageTable
