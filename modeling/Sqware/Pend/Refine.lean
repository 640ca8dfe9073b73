import Sqware.Pend.Spec

/-!
# Sections are moves

Every section of the ledger operations leaves a world whose grove is the old one after one move,
keeps the ledgers neat, and gives each ledger it writes a later version (`Acts`).  For the two
sections that end a walk this is so when what was collected stands for the edges of the world they
run in (`Matches`, `Below`).
-/

namespace Sqware.Ledger

open List Option

/-- The grove that the ledgers spell out. -/
def World.grove (w : World) : Grove where
  known t := t < w.nextTask
  present t := w.upgrade t = true
  pie := w.locate
  edge t e := e ∈ w.edges t

/-- Neat ledgers of a tree, and tokens ahead that nothing names. -/
structure Inv (w : World) : Prop where
  neat : w.Neat
  tree : Tree w.grove
  fresh : ∀ k, w.nextToken ≤ k → w.grove.Unused k
  loose_nodup : (w.loose.map Pie.token).Nodup
  loose : ∀ q ∈ w.loose, q.Root ∧ q.token < w.nextToken ∧ w.grove.Unused q.token

/-- What every section does. -/
structure Acts (w w' : World) : Prop where
  inv : Inv w'
  move : Move w.grove w'.grove
  bumps : Bumps w w'
  upgrade : ∀ t, w'.upgrade t = w.upgrade t

/-! ## Groves of worlds -/

theorem Grove.ext {g g' : Grove} (hk : ∀ t, g.known t ↔ g'.known t)
    (hp : ∀ t, g.present t ↔ g'.present t) (hq : ∀ t k, g.pie t k = g'.pie t k)
    (he : ∀ t e, g.edge t e ↔ g'.edge t e) : g = g' := by
  cases g
  cases g'
  congr 1
  · exact funext fun t => propext (hk t)
  · exact funext fun t => propext (hp t)
  · exact funext fun t => funext (hq t)
  · exact funext fun t => funext fun e => propext (he t e)

variable {w w' : World}

/-- Where the frame is kept, pies and edges decide the grove. -/
theorem Frame.grove (hf : Frame w w') {pie : TaskId → Token → Option Pie}
    {edge : TaskId → Edge → Prop} (hq : ∀ u j, w'.locate u j = pie u j)
    (he : ∀ u e, e ∈ w'.edges u ↔ edge u e) :
    w'.grove = { w.grove with pie := pie, edge := edge } := by
  refine Grove.ext (fun t => ?_) (fun t => ?_) hq he
  · simp only [World.grove, hf.nextTask]
  · simp only [World.grove, hf.upgrade]

theorem Inv.acts (hi : Inv w) (hm : Move w.grove w'.grove) (hw : Writes w w' fun _ => False)
    (hu : ∀ k, w.grove.Unused k → w'.grove.Unused k) : Acts w w' := by
  have hf := hw.frame
  refine ⟨⟨hw.neat, tree_move hi.tree hm, fun k hk => hu k (hi.fresh k ?_), ?_, fun q hq => ?_⟩, hm,
    hw.stale, hf.upgrade⟩
  · rwa [hf.nextToken] at hk
  · rw [hf.loose]
    exact hi.loose_nodup
  rw [hf.loose] at hq
  obtain ⟨hr, hlt, hun⟩ := hi.loose q hq
  rw [hf.nextToken]
  exact ⟨hr, hlt, hu _ hun⟩

theorem Inv.rest (hi : Inv w) : Acts w w := ⟨hi, .rest, .refl w _, fun _ => rfl⟩

theorem Inv.still {α : Type} {r r' : α} (hi : Inv w) (h : (r, w) = (r', w')) : Acts w w' := by
  cases h
  exact hi.rest

variable {pie : Pie}

theorem origin_eq_some {p : Token} {l : TaskId} :
    w.origin pie = some (p, l) ↔ pie.sire = some p ∧ pie.lord = some l ∧ w.upgrade l = true := by
  unfold World.origin
  split
  · next hs hl =>
    split
    · next hu =>
      rw [hs, hl]
      simp only [some.injEq, Prod.mk.injEq]
      constructor
      · rintro ⟨rfl, rfl⟩
        exact ⟨rfl, rfl, hu⟩
      · exact fun h => ⟨h.1, h.2.1⟩
    next hu =>
    rw [hs, hl]
    simp only [reduceCtorEq, some.injEq, false_iff]
    rintro ⟨_, rfl, hu'⟩
    exact hu hu'
  · next h =>
    simp only [reduceCtorEq, false_iff]
    rintro ⟨hs, hl, _⟩
    exact h p l hs hl

/-! ## Taking pies -/

variable {t : TaskId} {k : Token}

theorem take_grove (hn : w.Neat) (hi : Index w.grove) (hl : w.locate t k = some pie) :
    ∃ w', w.take t k = some (pie.invalidate, w') ∧ TakeSpec w w' t k pie ∧
      w'.grove = w.grove.prune [(t, k)] := by
  obtain ⟨w', hw', hspec⟩ := take_spec hn hl
  have ht : w.grove.present t := upgrade_of_locate hl
  -- an edge to the pie lies in its lord's ledger, under its sire
  have hedge : ∀ u e, e ∈ w.edges u → e.task = t → e.token = k →
      w.origin pie = some (e.parent, u) := by
    rintro u e he rfl rfl
    obtain ⟨q, hq, hs, hd⟩ := hi.edge he ht
    cases hl.symm.trans hq
    exact origin_eq_some.2 ⟨hs, hd, upgrade_of_mem_edges he⟩
  refine ⟨w', hw', hspec, hspec.frame.grove (fun u j => ?_) fun u e => ?_⟩
  · rw [hspec.locate]
    by_cases hx : u = t ∧ j = k
    · simp [hx]
    have hx' : (u, j) ∉ [(t, k)] := by simpa using hx
    rw [if_neg hx, if_neg hx']
    split
    · rfl
    next ho =>
    show w.locate u j = (w.locate u j).map _
    cases hq : w.locate u j with
    | none => rfl
    | some q =>
      -- an heir that names the pie would give the lord's edge
      have hd : q.disown [(t, k)] = q := disown_of_ne fun h hh hm => by
        rw [mem_singleton, Prod.mk.injEq] at hm
        have he := hi.heir hq hh
        exact ho (hedge u _ he hm.1 hm.2)
      rw [map_some, hd]
  · rw [hspec.edges]
    refine and_congr_right fun he => ?_
    have hiff : (w.origin pie = some (e.parent, u) ∧ e.token = k) ↔
        (e.task, e.token) ∈ [(t, k)] := by
      rw [mem_singleton, Prod.mk.injEq]
      constructor
      · rintro ⟨_, rfl⟩
        exact ⟨(hi.named he hl).symm, rfl⟩
      · rintro ⟨h1, h2⟩
        exact ⟨hedge u e he h1 h2, h2⟩
    rw [hiff]
    simp

/-- Taking the pies of `l` where those of `d` were taken before. -/
structure TakesSpec (w₀ w : World) (d l : List (TaskId × Token)) (removed : List Pie) (w' : World) :
    Prop extends Writes w w' fun _ => False where
  grove : w'.grove = w₀.grove.prune (l ++ d)
  removed : ∀ k, k ∈ removed.map Pie.token ↔ ∃ t, (t, k) ∈ l ∧ (t, k) ∉ d

theorem takeAll_spec {w0 : World} (hi : Index w0.grove) (l : List (TaskId × Token))
    {d : List (TaskId × Token)} (hn : w.Neat) (hf : Frame w0 w)
    (hw : w.grove = w0.grove.prune d) (hl : ∀ x ∈ l, ∃ q, w0.locate x.1 x.2 = some q) :
    TakesSpec w0 w d l (takeAll l w).1 (takeAll l w).2 := by
  induction l generalizing w d with
  | nil => exact ⟨.refl hn, hw, by simp [takeAll]⟩
  | cons x l ih =>
    obtain ⟨t, k⟩ := x
    have hl' : ∀ x ∈ l, ∃ q, w0.locate x.1 x.2 = some q := fun x hx => hl x (mem_cons_of_mem _ hx)
    have hloc : w.locate t k = (w0.grove.prune d).pie t k := by
      rw [← hw]
      rfl
    by_cases hd : (t, k) ∈ d
    · -- taken before: nothing is found
      have hnone : w.locate t k = none := by
        rw [hloc]
        simp [Grove.prune, hd]
      have htake : w.take t k = none := by
        unfold World.take
        rw [hnone]
      have ih' := ih hn hf hw hl'
      rw [takeAll, htake]
      refine ⟨ih'.toWrites, ?_, fun j => ?_⟩
      · rw [ih'.grove]
        refine prune_congr _ fun x => ?_
        simp only [mem_append, mem_cons]
        constructor
        · exact fun h => h.elim (fun h => .inl (.inr h)) .inr
        rintro ((rfl | h) | h)
        · exact .inr hd
        · exact .inl h
        · exact .inr h
      · rw [ih'.removed]
        constructor
        · rintro ⟨u, hu, hu'⟩
          exact ⟨u, mem_cons_of_mem _ hu, hu'⟩
        rintro ⟨u, hu, hu'⟩
        rcases mem_cons.1 hu with hx | hu
        · rw [hx] at hu'
          exact (hu' hd).elim
        · exact ⟨u, hu, hu'⟩
    · obtain ⟨q0, hq0⟩ := hl (t, k) mem_cons_self
      have hsome : w.locate t k = some (q0.disown d) := by
        rw [hloc]
        exact prune_pie.2 ⟨hd, q0, hq0, rfl⟩
      obtain ⟨w1, htake, hspec, hg⟩ := take_grove hn (hw ▸ hi.prune d) hsome
      have hg1 : w1.grove = w0.grove.prune ((t, k) :: d) := by
        rw [hg, hw, prune_prune]
        rfl
      have ih' := ih hspec.neat (hf.trans hspec.frame) hg1 hl'
      rw [takeAll, htake]
      refine ⟨hspec.toWrites.trans ih'.toWrites, ?_, fun j => ?_⟩
      · rw [ih'.grove]
        exact prune_congr _ fun x => by simp only [mem_append, mem_cons]; tauto
      · have htok : (q0.disown d).token = k := token_of_locate hsome
        rw [map_cons, mem_cons, show (q0.disown d).invalidate.token = k from htok,
          ih'.removed]
        constructor
        · rintro (rfl | ⟨u, hu, hu'⟩)
          · exact ⟨t, mem_cons_self, hd⟩
          · exact ⟨u, mem_cons_of_mem _ hu, fun h => hu' (mem_cons_of_mem _ h)⟩
        rintro ⟨u, hu, hu'⟩
        rcases mem_cons.1 hu with hx | hu
        · exact .inl (congrArg Prod.snd hx)
        · by_cases hx : (u, j) = (t, k)
          · exact .inl (congrArg Prod.snd hx)
          · exact .inr ⟨u, hu, fun h => (mem_cons.1 h).elim hx hu'⟩

/-! ## Sections on one or two ledgers -/

/-- As `Inv.acts`, for a section that uses up a token. -/
theorem Inv.acts_new (hi : Inv w) (hm : Move w.grove w'.grove) {n : Token} (hn : w.nextToken ≤ n)
    (hw : Writes { w with nextToken := n } w' fun _ => False) (new : Token) (hlt : new < n)
    (hnl : ∀ q ∈ w.loose, q.token ≠ new)
    (hu : ∀ k, k ≠ new → w.grove.Unused k → w'.grove.Unused k) : Acts w w' := by
  have hf := hw.frame
  refine ⟨⟨hw.neat, tree_move hi.tree hm, fun k hk => ?_, ?_, fun q hq => ?_⟩, hm, hw.stale,
    hf.upgrade⟩
  · rw [hf.nextToken] at hk
    exact hu k (hlt.trans_le hk).ne' (hi.fresh k (hn.trans hk))
  · rw [hf.loose]
    exact hi.loose_nodup
  · rw [hf.loose] at hq
    obtain ⟨hr, hqt, hun⟩ := hi.loose q hq
    rw [hf.nextToken]
    exact ⟨hr, hqt.trans_le hn, hu _ (hnl q hq) hun⟩

variable {f : Facts}

theorem insert_acts {r : Except PieFail Unit} (hi : Inv w) (ht : w.upgrade t = true)
    (hr : pie.Root) (hlt : pie.token < w.nextToken) (hun : w.grove.Unused pie.token)
    (hnl : ∀ q ∈ w.loose, q.token ≠ pie.token) (h : insert f w t pie = (r, w')) : Acts w w' := by
  unfold insert at h
  split at h
  · exact hi.still h
  split at h
  · exact hi.still h
  cases h
  have hfresh : w.locate t pie.token = none := hun.1 t
  have hw := ((Writes.refl hi.neat).push hfresh).changed t
  have hg : ((w.push t pie).changed t).grove = w.grove.plant t pie :=
    hw.frame.grove (fun u j => by rw [locate_changed, locate_push ht hfresh]; rfl)
      fun u e => by rw [edges_changed, edges_push]; rfl
  exact hi.acts_new (hg ▸ .plant ht hr hun) le_rfl (hw.mono (by tauto)) pie.token hlt hnl
    fun k hne hk => hg ▸ hk.plant hr hne t

/-- A token that goes nowhere. -/
theorem Inv.mint (hi : Inv w) {n : Token} (hn : w.nextToken ≤ n) :
    Acts w { w with nextToken := n } :=
  ⟨⟨hi.neat, hi.tree, fun k hk => hi.fresh k (hn.trans hk), hi.loose_nodup,
    fun q hq => ⟨(hi.loose q hq).1, (hi.loose q hq).2.1.trans_le hn, (hi.loose q hq).2.2⟩⟩,
    .rest, .refl w _, fun _ => rfl⟩

variable {requested : Option Window}

theorem effectiveWindow_spec {window : Option Window}
    (h : effectiveWindow pie requested = .ok window) :
    window = pie.grant.window ∨
      ∃ outer inner, pie.mail.source = some outer ∧ window = some inner ∧
        (pie.grant.window.getD outer).offset ≤ inner.offset ∧ inner.offset + inner.count ≤
          (pie.grant.window.getD outer).offset + (pie.grant.window.getD outer).count := by
  unfold effectiveWindow at h
  split at h
  · exact .inl (Except.ok.inj h).symm
  · simp at h
  next inner outer hs =>
  dsimp only at h
  split at h
  · next outerEnd innerEnd ho hin =>
    obtain ⟨rfl, _⟩ := checkedAdd_eq_some.1 ho
    obtain ⟨rfl, _⟩ := checkedAdd_eq_some.1 hin
    split at h
    · next hc => exact .inr ⟨outer, inner, hs, (Except.ok.inj h).symm, hc.1, hc.2⟩
    · simp at h
  · simp at h

variable {subset : Permission}

theorem publishable_spec {window : Option Window}
    (h : publishable f pie subset requested = .ok window) :
    pie.heir = none ∧ narrows pie.permission subset = true ∧
      effectiveWindow pie requested = .ok window := by
  unfold publishable at h
  iterate 3
    split at h
    · simp at h
  split at h
  · simp at h
  next hn =>
  split at h
  · simp at h
  next hh =>
  split at h
  · simp at h
  split at h
  · simp at h
  next win hw =>
  have hwin : win = window := by
    split at h
    · exact Except.ok.inj h
    next source _ =>
    cases hc : f.checkPublish pie.mail (win.getD source) with
    | error e => simp [hc, Except.map] at h
    | ok u => simpa [hc, Except.map] using h
  subst hwin
  simp only [Bool.not_eq_true, isSome_eq_false_iff, isNone_iff_eq_none] at hh
  simp only [Bool.or_eq_true, Bool.not_eq_eq_eq_not, Bool.not_true, not_or, Bool.not_eq_false] at hn
  exact ⟨hh, hn.2, hw⟩

/-- The writes of `publish`, with the token just minted. -/
theorem vest_acts (hi : Inv w) {caller dst : TaskId} {granted : Pie}
    (hl : w.locate caller pie.token = some pie) (hd : w.upgrade dst = true)
    (hv : Vests caller pie granted) (hk : granted.token = w.nextToken) :
    Acts w (World.vest { w with nextToken := w.nextToken + 1 } caller pie dst granted) := by
  have hun : w.grove.Unused granted.token := hi.fresh _ hk.ge
  have hlt : pie.token < granted.token := by
    rw [hk]
    by_contra hge
    have hnone := (hi.fresh pie.token (not_lt.1 hge)).1 caller
    simp [World.grove, hl] at hnone
  have hspec : VestSpec { w with nextToken := w.nextToken + 1 } _ caller pie dst granted :=
    vest_spec hi.neat hl hd hlt.ne' (hun.1 dst) fun _ => hun.2
  have hg : (World.vest { w with nextToken := w.nextToken + 1 } caller pie dst granted).grove =
      w.grove.graft caller pie dst granted :=
    hspec.frame.grove hspec.locate hspec.edges
  refine hi.acts_new (hg ▸ .graft hl hd hv hun hlt) (Nat.le_succ _) hspec.toWrites granted.token
    (hk ▸ Nat.lt_succ_self _) (fun q hq he => ?_) fun k hne hku => hg ▸ hku.graft hl hv.sire hne dst
  have := (hi.loose q hq).2.1
  rw [he, hk] at this
  exact this.ne rfl

theorem publish_acts {caller dst : TaskId} {src : Token} {mark : Mark}
    {r : Except PieFail Token} (hi : Inv w)
    (h : publish f w caller src dst subset mark requested = some (r, w')) : Acts w w' := by
  unfold publish at h
  split at h
  · exact hi.still (some.inj h)
  next hd =>
  split at h
  · exact hi.still (some.inj h)
  split at h
  · exact hi.still (some.inj h)
  next pie hl =>
  split at h
  · exact hi.still (some.inj h)
  next window hpub =>
  obtain ⟨hfree, hnar, hwin⟩ := publishable_spec hpub
  obtain ⟨⟨r1, w1⟩, hnew, h⟩ := map_eq_some_iff.1 h
  obtain ⟨next, hnext, hnew⟩ := map_eq_some_iff.1 hnew
  obtain ⟨hr1, rfl⟩ := Prod.mk.inj hnew
  obtain ⟨rfl, _⟩ := checkedAdd_eq_some.1 hnext
  have hmint := hi.mint (Nat.le_succ w.nextToken)
  split at h
  · next heq =>
    cases heq
    cases h
    exact hmint
  next granted w2 heq =>
  cases heq
  split at h
  · cases h
    exact hmint
  cases h
  have hsrc : pie.token = src := token_of_locate hl
  subst hsrc
  cases hng : f.newGrant pie.mail with
  | error e => simp [hng, Except.map] at hr1
  | ok u =>
    rw [hng] at hr1
    cases hr1
    have hup : w.upgrade dst = true := by simpa using hd
    exact vest_acts hi hl hup ⟨rfl, rfl, rfl, rfl, hnar, effectiveWindow_spec hwin, hfree⟩ rfl

theorem edge_unique (hn : w.Neat) {e e' : Edge} (he : e ∈ w.edges t)
    (he' : e' ∈ w.edges t) (hp : e.parent = e'.parent) (hk : e.token = e'.token) : e = e' := by
  obtain ⟨p, hpt, hm⟩ := mem_edges.1 he
  obtain ⟨p', hpt', hm'⟩ := mem_edges.1 he'
  cases hpt.symm.trans hpt'
  exact inj_on_of_nodup_map (hn t p hpt).pairs hm hm' (by rw [hp, hk])

theorem clearHeir_acts {x : Heir} {b : Bool} (hi : Inv w)
    (h : clearHeir w t k x = (b, w')) : Acts w w' := by
  unfold clearHeir at h
  dsimp only at h
  split at h
  · exact hi.still h
  next hchild =>
  unfold World.clearHeirLocked at h
  cases hl : w.locate t k with
  | none =>
    rw [hl] at h
    exact hi.still h
  | some pie =>
    rw [hl] at h
    dsimp only at h
    by_cases hx : pie.heir = some x
    · rw [if_pos hx] at h
      cases h
      have he : (⟨k, x.task, x.token⟩ : Edge) ∈ w.edges t := hi.tree.heir hl hx
      -- the edge found is the heir's, and a child that is there would hold the pie
      have hgone : ¬ w.grove.present x.task := by
        intro hp
        obtain ⟨q, hq, _⟩ := hi.tree.edge he hp
        apply hchild
        obtain ⟨p, hpt, hm⟩ := mem_edges.1 he
        rw [hpt, bind_some]
        obtain ⟨e', he'⟩ := isSome_iff_exists.1 (List.find?_isSome (p := fun e : Edge =>
          decide (e.parent = k ∧ e.token = x.token)).2 ⟨_, hm, by simp⟩)
        have hprop : e'.parent = k ∧ e'.token = x.token := by simpa using List.find?_some he'
        obtain rfl := edge_unique hi.neat he (mem_edges.2 ⟨p, hpt, mem_of_find?_eq_some he'⟩)
          hprop.1.symm hprop.2.symm
        rw [he', any_some, isSome_iff_exists]
        exact ⟨q, hq⟩
      have hw : Writes w (w.modifyPie t k fun q => q.setHeir none) _ :=
        (Writes.refl hi.neat).modifyPie t fun _ => id
      have hw' := (hw.changed t).removeHeir t k x.token
      have hg : (((w.modifyPie t k fun q => q.setHeir none).changed t).removeHeir t k
          x.token).grove = w.grove.clear t k pie x := by
        refine hw'.frame.grove (fun u j => ?_) fun u e => ?_
        · rw [locate_removeHeir, locate_changed,
            locate_modifyPie (g := fun q => q.setHeir none) fun _ => id, hl]
          rfl
        rw [mem_edges_removeHeir (hw.changed t).neat, edges_changed, edges_modifyPie]
        refine and_congr_right fun hm => not_congr (and_congr_right fun hu => ?_)
        subst hu
        constructor
        · exact fun hc => edge_unique hi.neat hm he hc.1 hc.2
        · rintro rfl
          exact ⟨rfl, rfl⟩
      refine hi.acts (hg ▸ .clear hl hx hgone) { hw' with stale := ?_ }
        fun j hj => hg ▸ hj.clear hl x
      intro u p' hp'
      by_cases hu : u = t
      · subst hu
        obtain ⟨p, hp, hm⟩ := bind_eq_some_iff.1 hl
        simp only [World.removeHeir, World.changed, World.modifyPie, World.modify, if_true, hp,
          map_some, some.injEq] at hp'
        subst hp'
        exact ⟨p, hp, Nat.le_succ _, .inr (.inl (Nat.lt_succ_self _))⟩
      · simp only [World.removeHeir, World.changed, World.modifyPie, World.modify, hu,
          if_false] at hp'
        exact ⟨p', hp', le_rfl, .inl rfl⟩
    · rw [if_neg hx] at h
      exact hi.still h

variable {q : Pie}

theorem narrow_spec (h : pie.narrow f subset = .ok q) : narrows pie.permission subset = true ∧
      q = { pie with grant := { pie.grant with permission := subset } } := by
  unfold Pie.narrow at h
  split at h
  · simp at h
  split at h
  · simp at h
  next hn =>
  rw [Bool.not_eq_true, Bool.not_eq_eq_eq_not, Bool.not_false] at hn
  refine ⟨hn, ?_⟩
  -- what is left of the bits is the subset, since they contain it
  have hc : pie.grant.permission.bits &&& subset.bits = subset.bits := by
    simp only [narrows, Permission.contains, Pie.permission, Bool.and_eq_true, beq_iff_eq] at hn
    exact hn.1.2
  unfold Grant.narrow at h
  split at h
  · simp [Except.map] at h
  · simp only [show narrows pie.grant.permission subset = true from hn, if_true, Except.map,
      Except.ok.injEq, hc] at h
    exact h.symm

theorem reduce_acts {r : Except PieFail Unit} (hi : Inv w)
    (h : reduce f w t k subset = (r, w')) : Acts w w' := by
  unfold reduce at h
  split at h
  · exact hi.still h
  next pie hl =>
  split at h
  · exact hi.still h
  split at h
  · exact hi.still h
  dsimp only at h
  split at h
  · exact hi.still h
  · exact hi.still h
  next narrowed _ hnar =>
  cases h
  obtain ⟨hn, rfl⟩ := narrow_spec hnar
  have htok : pie.token = k := token_of_locate hl
  obtain ⟨q, hq⟩ : ∃ q : Pie, q = { pie with grant := { pie.grant with permission := subset } } :=
    ⟨_, rfl⟩
  rw [← hq]
  have hqk : ∀ r : Pie, r.token = k → q.token = k := by
    intro r _
    rw [hq]
    exact htok
  have hw : Writes w (w.modifyPie t k fun _ => q) _ := (Writes.refl hi.neat).modifyPie t hqk
  have hg : ((w.modifyPie t k fun _ => q).changed t).grove = w.grove.set t k q :=
    (hw.changed t).frame.grove (fun u j => by
      rw [locate_changed, locate_modifyPie (g := fun _ => q) hqk, hl]
      rfl) fun u e => by
      rw [edges_changed, edges_modifyPie]
      rfl
  refine hi.acts ?_ ((hw.changed t).mono (by tauto)) fun j hj => hg ▸ hj.set hl (hq ▸ rfl)
  rw [hg, hq]
  exact .narrow hl hn

theorem reap_acts {r : Except PieFail (Option Pie)} (hi : Inv w)
    (h : reap f w t k = (r, w')) : Acts w w' := by
  unfold reap at h
  split at h
  · exact hi.still h
  next pie hl =>
  split at h
  · exact hi.still h
  split at h
  · exact hi.still h
  next hedges =>
  iterate 3
    split at h
    · exact hi.still h
  obtain ⟨w1, htake, hspec, hg⟩ := take_grove hi.neat hi.tree.index hl
  rw [htake] at h
  split at h
  · exact hi.still h
  · next heq => simp at heq
  next taken w2 heq =>
  cases heq
  cases h
  have hclosed : Closed w.grove [(t, k)] := by
    intro u j q p d hq hs hd hm
    rw [mem_singleton, Prod.mk.injEq] at hm
    obtain ⟨rfl, rfl⟩ := hm
    have he := (hi.tree.child hq hs hd (upgrade_of_locate hl)).1
    exact (hedges (List.any_eq_true.2 ⟨_, he, by simp⟩)).elim
  exact hi.acts (hg ▸ .prune hclosed) hspec.toWrites fun j hj => hg ▸ hj.prune _

/-! ## The last section of `cull` -/

/-- What was collected stands for the edges: the nodes are the root and, with each node, its
children, and nothing that is not a child of a node. -/
structure Matches (w : World) (root : TaskId × Token) (nodes : List (TaskId × Token)) : Prop where
  head : nodes.head? = some root
  held : ∀ x ∈ nodes, ∃ q, w.locate x.1 x.2 = some q
  children : ∀ x ∈ nodes, ∀ y, w.grove.Child x y → y ∈ nodes
  parents : ∀ y ∈ nodes.tail, ∃ x ∈ nodes, ⟨x.2, y.1, y.2⟩ ∈ w.edges x.1

section
variable {w : World} {root : TaskId × Token} {nodes : List (TaskId × Token)}

theorem Matches.root_mem (hm : Matches w root nodes) : root ∈ nodes := by
  have := hm.head
  cases nodes with
  | nil => simp at this
  | cons x l => simp_all

theorem Matches.tail_of_ne (hm : Matches w root nodes) {y : TaskId × Token} (hy : y ∈ nodes)
    (hne : y ≠ root) : y ∈ nodes.tail := by
  have := hm.head
  cases nodes with
  | nil => simp at hy
  | cons x l =>
    rcases mem_cons.1 hy with rfl | hy
    · simp_all
    · exact hy

theorem Matches.reach (hm : Matches w root nodes) (ht : Tree w.grove) (y : TaskId × Token) :
    y ∈ nodes ↔ Relation.ReflTransGen w.grove.Child root y := by
  refine Forest.mem_iff_reach (s := fun x => x ∈ nodes) Prod.snd (fun _ _ h => rank_child ht h)
    hm.root_mem hm.children (fun y hy hne => ?_) y
  obtain ⟨x, hx, he⟩ := hm.parents y (hm.tail_of_ne hy hne)
  obtain ⟨q, hq⟩ := hm.held y hy
  exact ⟨x, hx, he, upgrade_of_locate hq⟩

theorem Matches.closed (hm : Matches w root nodes) (ht : Tree w.grove) :
    Closed w.grove nodes := by
  intro t k q p d hq hs hd hmem
  obtain ⟨r, hr⟩ := hm.held _ hmem
  exact hm.children _ hmem (t, k)
    ⟨(ht.child hq hs hd (upgrade_of_locate hr)).1, (ht.held hq).2⟩

end

/-- The section fails and changes nothing, or what it ran stands. -/
theorem withTasksChecked_cases {β : Type} {tasks : List (TaskId × Nat)}
    {validate : Bool} {run : Option (Except PieFail β × World)}
    {r : Except PieFail (Except PieFail β)}
    (h : withTasksChecked f w tasks validate run = some (r, w')) :
    (∃ e, r = .error e ∧ w' = w) ∨
      ∃ x, r = .ok x ∧ (versionsMatch w tasks || validate) = true ∧ run = some (x, w') := by
  unfold withTasksChecked at h
  split at h
  · cases h
    exact .inl ⟨_, rfl, rfl⟩
  split at h
  · cases h
    exact .inl ⟨_, rfl, rfl⟩
  next hvalid =>
  rw [Bool.not_eq_true, Bool.not_eq_eq_eq_not, Bool.not_false] at hvalid
  obtain ⟨x, rfl, hx⟩ := map_eq_some_iff.1 h
  cases hx
  exact .inr ⟨x.1, rfl, hvalid, rfl⟩

theorem cullRun_cases (call : Call) (closing : Bool) (f : Facts) (w : World)
    (tasks : List (TaskId × Nat)) (nodes : List (TaskId × Token)) :
    (∃ e, cullRun call closing f w tasks nodes = (.error e, w)) ∨
      cullRun call closing f w tasks nodes =
        (.ok ((takeAll nodes.reverse w).1, tasks.map (·.1)), (takeAll nodes.reverse w).2) := by
  unfold cullRun
  split
  · exact .inl ⟨_, rfl⟩
  split
  · exact .inl ⟨_, rfl⟩
  split
  · exact .inl ⟨_, rfl⟩
  · exact .inr rfl

variable {tasks : List (TaskId × Nat)} {nodes : List (TaskId × Token)} {call : Call}

theorem cullLocked_kept {closing : Bool}
    {r : Except PieFail (Except PieFail (List Pie × List TaskId))}
    (h : cullLocked call closing f w tasks nodes = some (r, w')) :
    (∃ b, r = .ok (.ok b)) ∨ w' = w := by
  rcases withTasksChecked_cases h with ⟨e, _, hw⟩ | ⟨x, rfl, _, hrun⟩
  · exact .inr hw
  rcases cullRun_cases call closing f w tasks nodes with ⟨e, he⟩ | he
  · rw [he] at hrun
    exact .inr (Prod.mk.inj (some.inj hrun)).2.symm
  · rw [he] at hrun
    exact .inl ⟨_, congrArg _ (Prod.mk.inj (some.inj hrun)).1.symm⟩

structure CullSpec (w w' : World) (nodes : List (TaskId × Token)) (removed : List Pie) :
    Prop where
  acts : Acts w w'
  grove : w'.grove = w.grove.prune nodes
  removed : ∀ k, k ∈ removed.map Pie.token ↔ ∃ t, (t, k) ∈ nodes

theorem cullLocked_spec {closing : Bool} {removed : List Pie} {notified : List TaskId} (hi : Inv w)
    (hm : (versionsMatch w tasks || relationsMatch w tasks nodes) = true →
      Matches w (call.task, call.token) nodes)
    (h : cullLocked call closing f w tasks nodes = some (.ok (.ok (removed, notified)), w')) :
    CullSpec w w' nodes removed := by
  obtain ⟨x, hx, hvalid, hrun⟩ := (withTasksChecked_cases h).resolve_left (by simp)
  cases hx
  have hmatch := hm hvalid
  have he := (cullRun_cases call closing f w tasks nodes).resolve_left fun ⟨e, he⟩ => by
    rw [he] at hrun
    simp at hrun
  rw [he] at hrun
  obtain ⟨hok, rfl⟩ := Prod.mk.inj (some.inj hrun)
  cases hok
  have hspec := takeAll_spec hi.tree.index nodes.reverse hi.neat (.refl w) (prune_nil _).symm
    fun x hx => hmatch.held x (mem_reverse.1 hx)
  have hg : (takeAll nodes.reverse w).2.grove = w.grove.prune nodes := by
    rw [hspec.grove]
    exact prune_congr _ fun x => by simp
  refine ⟨?_, hg, fun k => ?_⟩
  · exact hi.acts (hg ▸ .prune (hmatch.closed hi.tree)) hspec.toWrites fun j hj => hg ▸ hj.prune _
  · rw [hspec.removed]
    simp

/-! ## The last section of `forget` -/

/-- The list has the children of the pie, each once. -/
structure Below (w : World) (x : TaskId × Token) (l : List (TaskId × Token)) : Prop where
  nodup : (l.map Prod.snd).Nodup
  mem : ∀ y, y ∈ l ↔ w.grove.Child x y

theorem child_iff {g : Grove} (hg : Tree g) {x y : TaskId × Token} (hx : g.present x.1)
    (hq : g.pie y.1 y.2 = some q) : g.Child x y ↔ q.sire = some x.2 ∧ q.lord = some x.1 := by
  constructor
  · rintro ⟨he, hp⟩
    obtain ⟨r, hr, hs, hl⟩ := hg.edge he hp
    cases hq.symm.trans hr
    exact ⟨hs, hl⟩
  · rintro ⟨hs, hl⟩
    exact ⟨(hg.child hq hs hl hx).1, (hg.held hq).2⟩

/-- Giving the children of a pie to its parent and taking the pie splices it out. -/
theorem splice_acts (hi : Inv w) {lord : TaskId} {parent : Token} {replacement : Pie}
    {l : List (TaskId × Token)} (hp : w.locate t k = some pie)
    (honly : pie.permission.contains .only = false) (ho : w.origin pie = some (parent, lord))
    (hr : w.locate lord parent = some replacement) (hmail : replacement.mail = pie.mail)
    (hl : Below w (t, k) l) :
    ∃ w1 w', reparent lord parent l w = some w1 ∧ w1.take t k = some (pie.invalidate, w') ∧
      Acts w w' ∧ w'.grove = w.grove.splice t k lord parent := by
  obtain ⟨hs, hlord, hup⟩ := origin_eq_some.1 ho
  have ht : w.grove.present t := upgrade_of_locate hp
  have hlt : parent < k := hi.tree.order hp hs
  -- the children, by what they say of their parent
  have hchild : ∀ x ∈ l, ∃ q, w.locate x.1 x.2 = some q ∧ q.sire = some k ∧ q.lord = some t := by
    intro x hx
    obtain ⟨he, hpr⟩ := (hl.mem x).1 hx
    exact hi.tree.edge he hpr
  have hgt : ∀ x ∈ l, k < x.2 := by
    intro x hx
    obtain ⟨q, hq, hqs, _⟩ := hchild x hx
    exact hi.tree.order hq hqs
  obtain ⟨w1, hw1, hrep⟩ := reparent_spec parent l hi.neat hup hl.nodup
    (fun x hx => by
      obtain ⟨q, hq, _⟩ := hchild x hx
      rw [hq]
      rfl)
    (fun x hx e he hc => by
      -- an edge to the child under the new parent would be its only parent
      obtain ⟨q, hq, hqs, _⟩ := hchild x hx
      have hqe : w.locate x.1 e.token = some q := by rw [hc.2, hq]
      rw [hi.tree.named he hqe] at hqe
      obtain ⟨r, hr', hrs, _⟩ := hi.tree.edge he (upgrade_of_locate hqe)
      cases hqe.symm.trans hr'
      rw [hqs, some.injEq] at hrs
      exact hlt.ne (hc.1.symm.trans hrs.symm))
  have hloc : ∀ u j, w1.locate u j = (w.locate u j).map (Grove.adopt t k lord parent) := by
    intro u j
    rw [hrep.locate]
    cases hq : w.locate u j with
    | none => simp
    | some q =>
      have hiff : (u, j) ∈ l ↔ q.sire = some k ∧ q.lord = some t :=
        (hl.mem (u, j)).trans (child_iff hi.tree ht hq)
      simp only [hiff, Grove.adopt, map_some]
      split <;> rfl
  have hadopt : Grove.adopt t k lord parent pie = pie :=
    if_neg fun hc => hlt.ne (some.inj (hs.symm.trans hc.1))
  have hp1 : w1.locate t k = some pie := by rw [hloc, hp, map_some, hadopt]
  obtain ⟨w', hw', hspec⟩ := take_spec hrep.neat hp1
  have ho1 : w1.origin pie = some (parent, lord) := by rw [hrep.frame.origin, ho]
  have hf : Frame w w' := hrep.frame.trans hspec.frame
  have hedge : ∀ u e, e ∈ w.edges u → e.task = t → e.token = k → e.parent = parent ∧ u = lord := by
    rintro u e he rfl rfl
    obtain ⟨q, hq, hqs, hql⟩ := hi.tree.edge he ht
    cases hp.symm.trans hq
    exact ⟨some.inj (hqs.symm.trans hs), some.inj (hql.symm.trans hlord)⟩
  have hg : w'.grove = w.grove.splice t k lord parent := by
    refine hf.grove (fun u j => ?_) fun u e => ?_
    · rw [hspec.locate, ho1]
      by_cases hx : u = t ∧ j = k
      · simp [hx]
      rw [if_neg hx, if_neg hx, hloc]
      show _ = (w.locate u j).map _
      cases hq : w.locate u j with
      | none => simp
      | some q =>
        by_cases hj : j = parent ∧ u = lord
        · simp [hj]
        have hd : (Grove.adopt t k lord parent q).disown [(t, k)] =
            Grove.adopt t k lord parent q := disown_of_ne fun h hh hm => by
          rw [mem_singleton, Prod.mk.injEq] at hm
          rw [adopt_heir] at hh
          exact hj (hedge u _ (hi.tree.heir hq hh) hm.1 hm.2)
        have hne : some (parent, lord) ≠ some (j, u) := by
          rw [ne_eq, some.injEq, Prod.mk.injEq]
          exact fun hc => hj ⟨hc.1.symm, hc.2.symm⟩
        rw [if_neg hne, map_some, map_some, hd]
    · rw [hspec.edges, hrep.edges, ho1, some.injEq, Prod.mk.injEq]
      show _ ↔ _ ∧ _ ∧ _ ∨ _
      constructor
      · rintro ⟨he | ⟨rfl, hpar, hm⟩, hnp, hnc⟩
        · refine .inl ⟨he, hnp, fun hc => hnc ⟨?_, hc.2⟩⟩
          obtain ⟨h1, h2⟩ := hedge u e he hc.1 hc.2
          exact ⟨h1.symm, h2.symm⟩
        · exact .inr ⟨rfl, hpar, (hl.mem _).1 hm⟩
      rintro (⟨he, hnp, hnc⟩ | ⟨rfl, hpar, hm⟩)
      · refine ⟨.inl he, hnp, fun hc => hnc ⟨?_, hc.2⟩⟩
        exact (hi.tree.named he (by rw [hc.2]; exact hp)).symm
      · have hmem := (hl.mem (e.task, e.token)).2 hm
        exact ⟨.inr ⟨rfl, hpar, hmem⟩, fun hc => hlt.ne (hpar.symm.trans hc.2),
          fun hc => (hgt _ hmem).ne hc.2.symm⟩
  refine ⟨w1, w', hw1, hw', ?_, hg⟩
  exact hi.acts (hg ▸ .splice hp honly hs hlord hr hmail) ⟨hspec.neat, hf,
      hrep.stale.bumps hspec.stale fun u hu => hu ▸ hspec.later parent lord ho1⟩
    fun j hj => hg ▸ hj.splice hr t k

structure ForgetSpec (f : Facts) (w w' : World) (t : TaskId) (k : Token) : Prop where
  acts : Acts w w'
  spliced : ∃ pie replacement parent lord, w.locate t k = some pie ∧
    w.origin pie = some (parent, lord) ∧ w.locate lord parent = some replacement ∧
    w'.grove = w.grove.splice t k lord parent ∧
    (f.alive pie.mail = true → ∀ u j q, w.grove.Child (t, k) (u, j) → w.locate u j = some q →
      replacement.permission.contains q.permission = true)

/-- `forget` fails and changes nothing, or has passed its checks. -/
theorem forgetRun_cases {r : Except PieFail Pie} (h : forgetRun call f w nodes = some (r, w')) :
    (∃ e, r = .error e ∧ w' = w) ∨
      ∃ pie replacement parent lord, w.locate call.task call.token = some pie ∧
        pie.permission.contains .only = false ∧ w.origin pie = some (parent, lord) ∧
        w.locate lord parent = some replacement ∧ replacement.mail = pie.mail ∧
        replaceable f w pie replacement nodes.tail = true ∧
        ∃ w1 x, reparent lord parent nodes.tail w = some w1 ∧
          w1.take call.task call.token = some x ∧ r = .ok x.1 ∧ w' = x.2 := by
  have herr : ∀ {e : PieFail}, some (Except.error e, w) = some (r, w') →
      ∃ e, r = .error e ∧ w' = w := fun h =>
    ⟨_, (Prod.mk.inj (some.inj h)).1.symm, (Prod.mk.inj (some.inj h)).2.symm⟩
  unfold forgetRun at h
  split at h
  · exact .inl (herr h)
  next pie hp =>
  split at h
  · exact .inl (herr h)
  next honly =>
  split at h
  · exact .inl (herr h)
  next parent lord ho =>
  split at h
  · exact .inl (herr h)
  next replacement hr =>
  split at h
  · exact .inl (herr h)
  next hmail =>
  split at h
  · exact .inl (herr h)
  next hrepl =>
  split at h
  · exact .inl (herr h)
  split at h
  · exact .inl (herr h)
  obtain ⟨w1, hw1, h⟩ := bind_eq_some_iff.1 h
  obtain ⟨x, hx, h⟩ := map_eq_some_iff.1 h
  cases h
  refine .inr ⟨pie, replacement, parent, lord, hp, by simpa using honly, ho, hr, ?_,
    by simpa using hrepl, w1, x, hw1, hx, rfl, rfl⟩
  by_contra hne
  exact hmail (by simp [hne])

theorem forgetLocked_kept {r : Except PieFail (Except PieFail Pie)}
    (h : forgetLocked call f w tasks nodes = some (r, w')) : (∃ b, r = .ok (.ok b)) ∨ w' = w := by
  rcases withTasksChecked_cases h with ⟨e, _, hw⟩ | ⟨x, rfl, _, hrun⟩
  · exact .inr hw
  rcases forgetRun_cases hrun with ⟨e, _, hw⟩ | ⟨_, _, _, _, _, _, _, _, _, _, _, y, _, _, rfl, _⟩
  · exact .inr hw
  · exact .inl ⟨_, rfl⟩

theorem forgetLocked_spec
    {taken : Pie} (hi : Inv w) (hb : Below w (call.task, call.token) nodes.tail)
    (h : forgetLocked call f w tasks nodes = some (.ok (.ok taken), w')) :
    ForgetSpec f w w' call.task call.token := by
  obtain ⟨x, hx, _, hrun⟩ := (withTasksChecked_cases h).resolve_left (by simp)
  cases hx
  obtain ⟨pie, replacement, parent, lord, hp, honly, ho, hr, hm, hrepl, w1, x, hw1, htake, _,
    rfl⟩ := (forgetRun_cases hrun).resolve_left (by simp)
  obtain ⟨w1', w2, hw1', hw2, hacts, hg⟩ := splice_acts hi hp honly ho hr hm hb
  cases hw1.symm.trans hw1'
  cases htake.symm.trans hw2
  refine ⟨hacts, pie, replacement, parent, lord, hp, ho, hr, hg, ?_⟩
  intro halive u j q hc hq
  rw [replaceable, halive, Bool.not_true, Bool.false_or, Bool.and_eq_true,
    List.all_eq_true] at hrepl
  have := hrepl.2 (u, j) ((hb.mem (u, j)).2 hc)
  simpa [hq] using this

end Sqware.Ledger
