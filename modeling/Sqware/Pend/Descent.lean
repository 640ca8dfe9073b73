import Sqware.Pend.Grove

/-!
# What a move makes of a pie

Every pie after a move is a new root, a pie just vested, or a pie from before, at most narrowed,
whose parent is the old one or, after a splice, the parent of the old one (`arises`).  So what
holds of every pie and its parent stays so if `publish` establishes it, if it composes, and if
narrowing either side keeps it (`Inherited`).
-/

namespace Sqware.Ledger

/-! ## Permissions -/

namespace Permission

theorem contains_refl (p : Permission) : p.contains p = true := by simp [contains]

theorem contains_trans {p q r : Permission} (hpq : p.contains q = true)
    (hqr : q.contains r = true) :
    p.contains r = true := by
  simp only [contains, beq_iff_eq] at hpq hqr ⊢
  calc p.bits &&& r.bits = p.bits &&& (q.bits &&& r.bits) := by rw [hqr]
    _ = (p.bits &&& q.bits) &&& r.bits := (BitVec.and_assoc ..).symm
    _ = r.bits := by rw [hpq, hqr]

end Permission

theorem contains_of_narrows {src subset : Permission} (h : narrows src subset = true) :
    src.contains subset = true := by
  rw [narrows, Bool.and_eq_true, Bool.and_eq_true] at h
  exact h.1.2

theorem only_of_narrows {src subset : Permission} (h : narrows src subset = true) :
    subset.contains .only = src.contains .only := by
  rw [narrows, Bool.and_eq_true] at h
  exact (beq_iff_eq.1 h.2).symm

/-! ## Pies from before -/

/-- The same pie, at most narrowed. -/
structure Pie.Kept (q q' : Pie) : Prop where
  mail : q'.mail = q.mail
  window : q'.grant.window = q.grant.window
  permission : q'.permission = q.permission ∨ narrows q.permission q'.permission = true

theorem Pie.Kept.refl (q : Pie) : q.Kept q := ⟨rfl, rfl, .inl rfl⟩

theorem Pie.Kept.contains {q q' : Pie} (h : q.Kept q') :
    q.permission.contains q'.permission = true := by
  rcases h.permission with he | hn
  · rw [he]
    exact Permission.contains_refl _
  · exact contains_of_narrows hn

theorem Pie.Kept.only {q q' : Pie} (h : q.Kept q') :
    q'.permission.contains .only = q.permission.contains .only := by
  rcases h.permission with he | hn
  · rw [he]
  · exact only_of_narrows hn

theorem vested_kept (pie : Pie) (dst : TaskId) (k : Token) : pie.Kept (pie.vested dst k) := by
  unfold Pie.vested
  split
  · exact ⟨rfl, rfl, .inl rfl⟩
  · exact .refl pie

theorem adopt_kept (t lord : TaskId) (k parent : Token) (q : Pie) (l : List (TaskId × Token)) :
    q.Kept ((Grove.adopt t k lord parent q).disown l) := by
  unfold Grove.adopt
  split <;> exact ⟨rfl, rfl, .inl rfl⟩

/-- Where a pie of a grove after a move comes from. -/
inductive Arises (g : Grove) (u : TaskId) (j : Token) (q' : Pie) : Prop
  | root (hr : q'.Root) (hj : g.Unused j)
  | vest {caller : TaskId} {pie : Pie} (hp : g.pie caller pie.token = some pie)
      (hv : Vests caller pie q') (hj : g.Unused j)
  | kept {q : Pie} (hq : g.pie u j = some q) (hk : q.Kept q') (hs : q'.sire = q.sire)
      (hl : q'.lord = q.lord)
  | moved {q pie : Pie} {t : TaskId} {k : Token} (hq : g.pie u j = some q) (hk : q.Kept q')
      (hs : q.sire = some k) (hl : q.lord = some t) (hp : g.pie t k = some pie)
      (hs' : q'.sire = pie.sire) (hl' : q'.lord = pie.lord)

theorem arises {g g' : Grove} (hm : Move g g') {u : TaskId} {j : Token} {q' : Pie}
    (hq : g'.pie u j = some q') : Arises g u j q' := by
  have hold : ∀ {q}, g.pie u j = some q → Arises g u j q := fun h => .kept h (.refl _) rfl rfl
  cases hm with
  | rest => exact hold hq
  | enter _ => exact hold hq
  | leave t =>
    simp only [Grove.leave] at hq
    split at hq
    · simp at hq
    · exact hold hq
  | plant _ hr hk =>
    simp only [Grove.plant] at hq
    split at hq
    · next hx =>
      cases hq
      exact .root hr (hx.2 ▸ hk)
    · exact hold hq
  | graft hp _ hv hk _ =>
    rcases graft_pie hp hk hq with ⟨rfl, rfl, rfl⟩ | ⟨_, hq | ⟨rfl, rfl, rfl⟩⟩
    · exact .vest hp hv hk
    · exact hold hq
    · exact .kept hp (vested_kept _ _ _) (vested_sire _ _ _) (vested_lord _ _ _)
  | prune _ =>
    obtain ⟨_, q, hq0, rfl⟩ := prune_pie.1 hq
    exact .kept hq0 ⟨rfl, rfl, .inl rfl⟩ rfl rfl
  | @splice t lord k parent pie _ hp _ hs hl _ _ =>
    obtain ⟨_, q, hq0, rfl⟩ := splice_pie.1 hq
    by_cases hc : q.sire = some k ∧ q.lord = some t
    · refine .moved hq0 (adopt_kept _ _ _ _ _ _) hc.1 hc.2 hp ?_ ?_
      · rw [Grove.adopt, if_pos hc, hs]
        rfl
      · rw [Grove.adopt, if_pos hc, hl]
        rfl
    refine .kept hq0 (adopt_kept _ _ _ _ _ _) ?_ ?_
    · rw [Grove.adopt, if_neg hc]
      rfl
    · rw [Grove.adopt, if_neg hc]
      rfl
  | narrow hp hn =>
    rcases set_pie hq with ⟨rfl, rfl, rfl⟩ | hq
    · exact .kept hp ⟨rfl, rfl, .inr hn⟩ rfl rfl
    · exact hold hq
  | clear hp _ _ =>
    rcases set_pie hq with ⟨rfl, rfl, rfl⟩ | hq
    · exact .kept hp ⟨rfl, rfl, .inl rfl⟩ rfl rfl
    · exact hold hq

/-! ## Relations of a pie and its parent -/

/-- A relation of parent and child that `publish` establishes and the other moves keep. -/
structure Inherited (P : Pie → Pie → Prop) : Prop where
  vest : ∀ {caller : TaskId} {pie granted : Pie}, Vests caller pie granted → P pie granted
  trans : ∀ {r p q : Pie}, P r p → P p q → P r q
  kept : ∀ {r r' q q' : Pie}, P r q → r.Kept r' → q.Kept q' → P r' q'

/-- Every pie and its parent, where the parent is held, are related. -/
def Descends (P : Pie → Pie → Prop) (g : Grove) : Prop :=
  ∀ t k q p l r, g.pie t k = some q → q.sire = some p → q.lord = some l → g.pie l p = some r → P r q

theorem descends_move {P : Pie → Pie → Prop} (hP : Inherited P) {g g' : Grove} (hm : Move g g')
    (h : Descends P g) : Descends P g' := by
  intro t k q' p l r' hq' hs hl hr'
  -- a parent that is still held was held before: its token was in use
  have hparent : ¬ g.Unused p → ∃ r, g.pie l p = some r ∧ r.Kept r' := by
    intro hp
    cases arises hm hr' with
    | root _ hk => exact (hp hk).elim
    | vest _ _ hk => exact (hp hk).elim
    | kept hr hk _ _ => exact ⟨_, hr, hk⟩
    | moved hr hk _ _ _ _ _ => exact ⟨_, hr, hk⟩
  cases arises hm hq' with
  | root hr _ => simp [hr.1] at hs
  | @vest caller pie hp hv _ =>
    rw [hv.sire, Option.some.injEq] at hs
    rw [hv.lord, Option.some.injEq] at hl
    subst hs hl
    obtain ⟨r, hr, hk⟩ := hparent fun hk => by simp [hk.held] at hp
    cases hp.symm.trans hr
    exact hP.kept (hP.vest hv) hk (.refl _)
  | @kept q hq hkept hs' hl' =>
    obtain ⟨r, hr, hk⟩ := hparent fun hk => hk.sire hq (hs' ▸ hs)
    exact hP.kept (h t k q p l r hq (hs' ▸ hs) (hl' ▸ hl) hr) hk hkept
  | @moved q pie t' k' hq hkept hqs hql hp hs' hl' =>
    obtain ⟨r, hr, hk⟩ := hparent fun hk => hk.sire hp (hs' ▸ hs)
    exact hP.kept (hP.trans (h t' k' pie p l r hp (hs' ▸ hs) (hl' ▸ hl) hr)
      (h t k q k' t' pie hq hqs hql hp)) hk hkept

end Sqware.Ledger
