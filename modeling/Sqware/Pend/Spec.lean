import Sqware.Pend.Grove
import Sqware.Pend.Walk

/-!
# What the writes do

A world is read through `locate` and `edges`.  For each write there is what it does to these two;
and it keeps the ledgers neat (`Pend.Neat`) and says which of them it leaves changed without a new
version (`Writes`).
-/

namespace Sqware.Ledger

open List Option Keyed Multi

/-- Tokens are distinct, edges are sorted by parent, and no child has two edges from one parent. -/
structure Pend.Neat (p : Pend) : Prop where
  tokens : (p.pies.map Pie.token).Nodup
  sorted : Multi.Sorted Edge.parent p.heirs
  pairs : (p.heirs.map fun e => (e.parent, e.token)).Nodup

def World.Neat (w : World) : Prop := ∀ t p, w.pends t = some p → p.Neat

/-- Nothing beside the contents of ledgers differs. -/
structure Frame (w w' : World) : Prop where
  upgrade : ∀ t, w'.upgrade t = w.upgrade t
  nextTask : w'.nextTask = w.nextTask
  nextToken : w'.nextToken = w.nextToken
  loose : w'.loose = w.loose

/-- Outside `D`, a ledger that differs has a later version. -/
def Stale (w w' : World) (D : TaskId → Prop) : Prop :=
  ∀ t p', w'.pends t = some p' → ∃ p, w.pends t = some p ∧ p.version ≤ p'.version ∧
    (p' = p ∨ p.version < p'.version ∨ D t)

/-- A ledger that differs has a later version. -/
def Bumps (w w' : World) : Prop := Stale w w' fun _ => False

/-- What a section writes: ledgers that stay neat and, outside `D`, get a later version. -/
structure Writes (w w' : World) (D : TaskId → Prop) : Prop where
  neat : w'.Neat
  frame : Frame w w'
  stale : Stale w w' D

/-! ## Frames and versions -/

theorem Frame.refl (w : World) : Frame w w := ⟨fun _ => rfl, rfl, rfl, rfl⟩

variable {w1 w2 w3 : World}

theorem Frame.trans (h : Frame w1 w2) (h' : Frame w2 w3) : Frame w1 w3 :=
  ⟨fun t => (h'.upgrade t).trans (h.upgrade t), h'.nextTask.trans h.nextTask,
    h'.nextToken.trans h.nextToken, h'.loose.trans h.loose⟩

theorem Frame.origin {w w' : World} (h : Frame w w') (pie : Pie) :
    w'.origin pie = w.origin pie := by
  unfold World.origin
  simp only [h.upgrade]

theorem frame_modify (w : World) (t : TaskId) (f : Pend → Pend) : Frame w (w.modify t f) := by
  refine ⟨fun u => ?_, rfl, rfl, rfl⟩
  unfold World.upgrade World.modify
  dsimp only
  split <;> simp

theorem Stale.refl (w : World) (D : TaskId → Prop) : Stale w w D :=
  fun _ p' h => ⟨p', h, le_rfl, .inl rfl⟩

theorem Stale.mono {w w' : World} {D D' : TaskId → Prop} (h : Stale w w' D)
    (hD : ∀ t, D t → D' t) : Stale w w' D' := by
  intro t p' hp'
  obtain ⟨p, hp, hle, hc⟩ := h t p' hp'
  exact ⟨p, hp, hle, hc.imp_right (Or.imp_right (hD t))⟩

variable {w w' : World} {D : TaskId → Prop}

theorem Stale.trans (h : Stale w1 w2 D) (h' : Stale w2 w3 D) : Stale w1 w3 D := by
  intro t p3 hp3
  obtain ⟨p2, hp2, hle, hc⟩ := h' t p3 hp3
  obtain ⟨p1, hp1, hle1, hc1⟩ := h t p2 hp2
  refine ⟨p1, hp1, hle1.trans hle, ?_⟩
  rcases hc1 with rfl | hlt | hd
  · exact hc
  · exact .inr (.inl (by omega))
  · exact .inr (.inr hd)

theorem Stale.modify (h : Stale w w' D) (t : TaskId)
    {f : Pend → Pend} (hf : ∀ p, (f p).version = p.version) :
    Stale w (w'.modify t f) fun u => D u ∨ u = t := by
  intro u p' hp'
  simp only [World.modify] at hp'
  split at hp'
  · next hu =>
    obtain ⟨q, hq, rfl⟩ := map_eq_some_iff.1 hp'
    obtain ⟨p, hp, hle, _⟩ := h u q hq
    exact ⟨p, hp, (hf q).symm ▸ hle, .inr (.inr (.inr hu))⟩
  · obtain ⟨p, hp, hle, hc⟩ := h u p' hp'
    exact ⟨p, hp, hle, hc.imp_right (Or.imp_right .inl)⟩

theorem Stale.changed (h : Stale w w' D) (t : TaskId) :
    Stale w (w'.changed t) fun u => D u ∧ u ≠ t := by
  intro u p' hp'
  simp only [World.changed, World.modify] at hp'
  split at hp'
  · next hu =>
    obtain ⟨q, hq, rfl⟩ := map_eq_some_iff.1 hp'
    obtain ⟨p, hp, hle, _⟩ := h u q hq
    exact ⟨p, hp, hle.trans (Nat.le_succ _), .inr (.inl (Nat.lt_succ_of_le hle))⟩
  · next hu =>
    obtain ⟨p, hp, hle, hc⟩ := h u p' hp'
    exact ⟨p, hp, hle, hc.imp_right (Or.imp_right fun hd => ⟨hd, hu⟩)⟩

/-- The version of a ledger has grown. -/
def Later (w w' : World) (t : TaskId) : Prop :=
  ∀ p', w'.pends t = some p' → ∃ p, w.pends t = some p ∧ p.version < p'.version

theorem Stale.later (h : Stale w w' D) (t : TaskId) : Later w (w'.changed t) t := by
  intro p' hp'
  simp only [World.changed, World.modify, if_true] at hp'
  obtain ⟨q, hq, rfl⟩ := map_eq_some_iff.1 hp'
  obtain ⟨p, hp, hle, _⟩ := h t q hq
  exact ⟨p, hp, Nat.lt_succ_of_le hle⟩

theorem Later.trans {t : TaskId} (h : Later w1 w2 t) (h' : Stale w2 w3 D) : Later w1 w3 t := by
  intro p3 hp3
  obtain ⟨p2, hp2, hle, _⟩ := h' t p3 hp3
  obtain ⟨p1, hp1, hlt⟩ := h p2 hp2
  exact ⟨p1, hp1, hlt.trans_le hle⟩

/-- A ledger that is stale and then gets a later version is not stale. -/
theorem Stale.bumps (h : Stale w1 w2 D) (h' : Bumps w2 w3)
    (hD : ∀ t, D t → Later w2 w3 t) : Bumps w1 w3 := by
  intro t p3 hp3
  obtain ⟨p2, hp2, hle, hc⟩ := h' t p3 hp3
  obtain ⟨p1, hp1, hle1, hc1⟩ := h t p2 hp2
  refine ⟨p1, hp1, hle1.trans hle, ?_⟩
  rcases hc1 with rfl | hlt | hd
  · exact hc
  · exact .inr (.inl (hlt.trans_le hle))
  · obtain ⟨q, hq, hlt⟩ := hD t hd p3 hp3
    cases hp2.symm.trans hq
    exact .inr (.inl (hle1.trans_lt hlt))

/-! ## Reading after one write -/

section
variable {w : World} {t u : TaskId} {k j : Token} {f : Pend → Pend}

theorem neat_modify (h : w.Neat) (hf : ∀ p, w.pends t = some p → p.Neat → (f p).Neat) :
    (w.modify t f).Neat := by
  intro u p hp
  simp only [World.modify] at hp
  split at hp
  · next hu =>
    obtain ⟨q, hq, rfl⟩ := map_eq_some_iff.1 hp
    subst hu
    exact hf q hq (h u q hq)
  · exact h u p hp

theorem Writes.refl (h : w.Neat) : Writes w w fun _ => False := ⟨h, .refl w, .refl w _⟩

variable {w' : World} {D : TaskId → Prop}

theorem Writes.mono {D' : TaskId → Prop} (h : Writes w w' D) (hD : ∀ t, D t → D' t) :
    Writes w w' D' :=
  { h with stale := h.stale.mono hD }

theorem Writes.trans (h : Writes w1 w2 D) (h' : Writes w2 w3 D) : Writes w1 w3 D :=
  ⟨h'.neat, h.frame.trans h'.frame, h.stale.trans h'.stale⟩

/-- A write that keeps the version leaves its ledger stale. -/
theorem Writes.modify (h : Writes w w' D) (hv : ∀ p, (f p).version = p.version)
    (hf : ∀ p, w'.pends t = some p → p.Neat → (f p).Neat) :
    Writes w (w'.modify t f) fun u => D u ∨ u = t :=
  ⟨neat_modify h.neat hf, h.frame.trans (frame_modify _ _ _), h.stale.modify t hv⟩

theorem Writes.changed (h : Writes w w' D) (t : TaskId) :
    Writes w (w'.changed t) fun u => D u ∧ u ≠ t :=
  ⟨neat_modify h.neat fun _ _ hp => ⟨hp.tokens, hp.sorted, hp.pairs⟩,
    h.frame.trans (frame_modify _ _ _), h.stale.changed t⟩

theorem locate_modify (hf : ∀ p, (f p).pies = p.pies) :
    (w.modify t f).locate u j = w.locate u j := by
  unfold World.locate World.modify
  dsimp only
  split
  · cases w.pends u with
    | none => rfl
    | some p => simp [hf]
  · rfl

theorem edges_modify (hf : ∀ p, (f p).heirs = p.heirs) : (w.modify t f).edges u = w.edges u := by
  unfold World.edges World.modify
  dsimp only
  split
  · cases w.pends u with
    | none => rfl
    | some p => simp [hf]
  · rfl

variable {e : Edge}

theorem mem_edges : e ∈ w.edges t ↔ ∃ p, w.pends t = some p ∧ e ∈ p.heirs := by
  unfold World.edges
  cases w.pends t <;> simp

@[simp] theorem locate_changed : (w.changed t).locate u j = w.locate u j :=
  locate_modify fun _ => rfl

@[simp] theorem edges_changed : (w.changed t).edges u = w.edges u := edges_modify fun _ => rfl

variable {pie : Pie}

theorem token_of_locate (h : w.locate t k = some pie) : pie.token = k := by
  obtain ⟨p, _, hg⟩ := bind_eq_some_iff.1 h
  exact key_of_get hg

theorem upgrade_of_locate (h : w.locate t k = some pie) : w.upgrade t = true := by
  obtain ⟨p, hp, _⟩ := bind_eq_some_iff.1 h
  simp [World.upgrade, hp]

theorem upgrade_of_mem_edges (h : e ∈ w.edges t) : w.upgrade t = true := by
  obtain ⟨p, hp, _⟩ := mem_edges.1 h
  simp [World.upgrade, hp]

variable {g : Pie → Pie}

theorem locate_modifyPie (hg : ∀ q, q.token = k → (g q).token = k) :
    (w.modifyPie t k g).locate u j =
      if u = t ∧ j = k then (w.locate t k).map g else w.locate u j := by
  unfold World.locate World.modifyPie World.modify
  dsimp only
  by_cases hu : u = t
  · subst hu
    cases w.pends u with
    | none => simp
    | some p =>
      simp only [true_and, if_true, map_some, bind_some, get_update hg]
  · simp [hu]

theorem edges_modifyPie : (w.modifyPie t k g).edges u = w.edges u :=
  edges_modify fun _ => rfl

theorem Writes.modifyPie (h : Writes w w' D) (t : TaskId)
    (hg : ∀ q, q.token = k → (g q).token = k) :
    Writes w (w'.modifyPie t k g) fun u => D u ∨ u = t :=
  h.modify (fun _ => rfl) fun p _ hp => ⟨by
    show ((Keyed.update Pie.token k g p.pies).map Pie.token).Nodup
    rw [map_update hg]
    exact hp.tokens, hp.sorted, hp.pairs⟩

theorem locate_push (ht : w.upgrade t = true) (h : w.locate t pie.token = none) :
    (w.push t pie).locate u j =
      if u = t ∧ j = pie.token then some pie else w.locate u j := by
  unfold World.locate World.push World.modify
  unfold World.locate at h
  dsimp only
  by_cases hu : u = t
  · subst hu
    cases hp : w.pends u with
    | none => simp [World.upgrade, hp] at ht
    | some p =>
      rw [hp, bind_some] at h
      simp only [true_and, if_true, map_some, bind_some, get_append_fresh h]
  · simp [hu]

theorem edges_push : (w.push t pie).edges u = w.edges u := edges_modify fun _ => rfl

theorem Writes.push (h : Writes w w' D) (hf : w'.locate t pie.token = none) :
    Writes w (w'.push t pie) fun u => D u ∨ u = t :=
  h.modify (fun _ => rfl) fun p hp hn => by
    rw [World.locate, hp, bind_some] at hf
    exact ⟨nodup_append hn.tokens hf, hn.sorted, hn.pairs⟩

variable {c : TaskId}

theorem locate_insertHeir : (w.insertHeir t k c j).locate u = w.locate u := by
  funext i
  exact locate_modify fun _ => rfl

theorem mem_edges_insertHeir (ht : w.upgrade t = true) :
    e ∈ (w.insertHeir t k c j).edges u ↔ e ∈ w.edges u ∨ u = t ∧ e = ⟨k, c, j⟩ := by
  unfold World.edges World.insertHeir World.modify
  dsimp only
  by_cases hu : u = t
  · subst hu
    cases hp : w.pends u with
    | none => simp [World.upgrade, hp] at ht
    | some p =>
      simp only [if_true, map_some, getD_some, mem_insert, true_and]
      exact or_comm
  · simp [hu]

theorem Writes.insertHeir (h : Writes w w' D)
    (hf : ∀ e ∈ w'.edges t, ¬ (e.parent = k ∧ e.token = j)) :
    Writes w (w'.insertHeir t k c j) fun u => D u ∨ u = t :=
  h.modify (fun _ => rfl) fun p hp hn => by
    refine ⟨hn.tokens, insert_sorted hn.sorted _, ?_⟩
    show ((Multi.insert Edge.parent p.heirs ⟨k, c, j⟩).map fun e => (e.parent, e.token)).Nodup
    rw [((insert_perm p.heirs (⟨k, c, j⟩ : Edge)).map _).nodup_iff, map_cons,
      nodup_cons]
    refine ⟨fun hm => ?_, hn.pairs⟩
    obtain ⟨e, he, heq⟩ := List.mem_map.1 hm
    rw [Prod.mk.injEq] at heq
    exact hf e (mem_edges.2 ⟨p, hp, he⟩) heq

theorem locate_removeHeir : (w.removeHeir t k j).locate u = w.locate u := by
  funext i
  exact locate_modify fun _ => rfl

theorem mem_edges_removeHeir (h : w.Neat) :
    e ∈ (w.removeHeir t k j).edges u ↔
      e ∈ w.edges u ∧ ¬ (u = t ∧ e.parent = k ∧ e.token = j) := by
  by_cases hu : u = t
  · subst hu
    unfold World.edges World.removeHeir World.modify
    dsimp only
    cases hp : w.pends u with
    | none => simp
    | some p =>
      have hn := h u p hp
      -- one edge at most has this parent and token, so removing the first removes them all
      have hd : remove Edge.parent p.heirs k (fun e => e.token = j) =
          p.heirs.filter fun e => (e.parent, e.token) ≠ (k, j) := by
        rw [remove_eq hn.sorted, ← erase_eq_filter hn.pairs, Keyed.erase]
        simp only [Prod.mk.injEq, Bool.decide_and]
      simp only [if_true, map_some, getD_some, true_and, hd, mem_filter, ne_eq,
        Prod.mk.injEq, decide_eq_true_eq]
  · unfold World.edges World.removeHeir World.modify
    simp [hu]

theorem locate_removePie (h : w.Neat) :
    (w.removePie t k).locate u j = if u = t ∧ j = k then none else w.locate u j := by
  by_cases hu : u = t
  · subst hu
    unfold World.locate World.removePie World.modify
    dsimp only
    cases hp : w.pends u with
    | none => simp
    | some p =>
      simp only [true_and, if_true, map_some, bind_some,
        get_erase (h u p hp).tokens]
  · unfold World.locate World.removePie World.modify
    simp [hu]

theorem edges_removePie : (w.removePie t k).edges u = w.edges u := edges_modify fun _ => rfl

theorem Writes.removePie (h : Writes w w' D) (t : TaskId) (k : Token) :
    Writes w (w'.removePie t k) fun u => D u ∨ u = t :=
  h.modify (fun _ => rfl) fun _ _ hp => ⟨nodup_erase hp.tokens, hp.sorted, hp.pairs⟩

theorem locate_dropHeirs : (w.dropHeirs t k).locate u j = w.locate u j :=
  locate_modify fun _ => rfl

theorem mem_edges_dropHeirs :
    e ∈ (w.dropHeirs t k).edges u ↔ e ∈ w.edges u ∧ ¬ (u = t ∧ e.parent = k) := by
  unfold World.edges World.dropHeirs World.modify
  dsimp only
  by_cases hu : u = t
  · subst hu
    cases w.pends u <;> simp
  · simp [hu]

theorem Writes.dropHeirs (h : Writes w w' D) (t : TaskId) (k : Token) :
    Writes w (w'.dropHeirs t k) fun u => D u ∨ u = t :=
  h.modify (fun _ => rfl) fun _ _ hn =>
    ⟨hn.tokens, hn.sorted.sublist filter_sublist, hn.pairs.sublist (filter_sublist.map _)⟩

theorem Writes.removeHeir (h : Writes w w' D) (t : TaskId) (k j : Token) :
    Writes w (w'.removeHeir t k j) fun u => D u ∨ u = t :=
  h.modify (fun _ => rfl) fun p _ hn => by
    have hs : (remove Edge.parent p.heirs k fun e => e.token = j).Sublist p.heirs := by
      rw [remove_eq hn.sorted]
      exact eraseP_sublist
    exact ⟨hn.tokens, hn.sorted.sublist hs, hn.pairs.sublist (hs.map _)⟩

end

/-! ## Clearing an heir -/

/-- One pie forgets its heir. -/
structure ClearSpec (w w' : World) (t : TaskId) (k : Token) (x : Heir) : Prop extends
    Writes w w' fun _ => False where
  locate : ∀ u j, w'.locate u j =
    if u = t ∧ j = k then (w.locate u j).map (Pie.disown [(x.task, x.token)]) else w.locate u j
  edges : ∀ u, w'.edges u = w.edges u

theorem clearHeirLocked_spec (h : w.Neat) (t : TaskId) (k : Token) (x : Heir) :
    ClearSpec w (w.clearHeirLocked t k x).2 t k x := by
  have hsame : (w.locate t k).map (Pie.disown [(x.task, x.token)]) = w.locate t k →
      ClearSpec w w t k x := by
    intro hd
    refine ⟨.refl h, fun u j => ?_, fun u => rfl⟩
    split
    · next he => rw [he.1, he.2, hd]
    · rfl
  unfold World.clearHeirLocked
  split
  · next hl => exact hsame (by rw [hl, map_none])
  next pie hl =>
  by_cases hx : pie.heir = some x
  · rw [if_pos hx]
    have hw : Writes w (w.modifyPie t k fun q => q.setHeir none) _ :=
      (Writes.refl h).modifyPie t fun _ => id
    refine ⟨(hw.changed t).mono (by tauto), fun u j => ?_, fun u => ?_⟩
    · rw [locate_changed, locate_modifyPie (g := fun q => q.setHeir none) fun _ => id]
      split
      · next he => simp [he, hl, Pie.disown, hx, Option.filter]
      · rfl
    · rw [edges_changed, edges_modifyPie]
  · rw [if_neg hx]
    have hd : pie.disown [(x.task, x.token)] = pie := disown_of_ne fun y hy => by
      rintro hm
      obtain rfl : y = x := by
        cases y
        cases x
        simp_all
      exact hx hy
    exact hsame (by rw [hl, map_some, hd])

/-! ## Taking a pie -/

/-- One pie goes, and its parent forgets it. -/
structure TakeSpec (w w' : World) (t : TaskId) (k : Token) (pie : Pie) : Prop extends
    Writes w w' fun _ => False where
  locate : ∀ u j, w'.locate u j =
    if u = t ∧ j = k then none
    else if w.origin pie = some (j, u) then (w.locate u j).map (Pie.disown [(t, k)])
    else w.locate u j
  edges : ∀ u e, e ∈ w'.edges u ↔ e ∈ w.edges u ∧ ¬ (u = t ∧ e.parent = k) ∧
    ¬ (w.origin pie = some (e.parent, u) ∧ e.token = k)
  later : ∀ j u, w.origin pie = some (j, u) → Later w w' u

section
variable {w : World} {t : TaskId} {k : Token} {pie : Pie}

theorem take_spec (h : w.Neat) (hl : w.locate t k = some pie) :
    ∃ w', w.take t k = some (pie.invalidate, w') ∧ TakeSpec w w' t k pie := by
  unfold World.take
  rw [hl]
  refine ⟨_, rfl, ?_⟩
  have hw1 := (Writes.refl h).removePie t k
  cases ho : w.origin pie with
  | none =>
    rw [hw1.frame.origin, ho]
    refine ⟨((hw1.dropHeirs t k).changed t).mono (by tauto), fun u j => ?_, fun u e => ?_,
      fun j u hju => by simp [ho] at hju⟩
    · rw [locate_changed, locate_dropHeirs, locate_removePie h]
      simp [ho]
    · rw [edges_changed, mem_edges_dropHeirs, edges_removePie]
      simp [ho]
  | some x =>
    obtain ⟨parent, lord⟩ := x
    rw [hw1.frame.origin, ho]
    have hw2 := hw1.removeHeir lord parent k
    have hc := clearHeirLocked_spec hw2.neat lord parent ⟨t, k⟩
    have hw3 := hw2.trans (hc.mono fun _ => False.elim)
    have hlater := (hw3.stale.later lord).trans
      (((Writes.refl (hw3.changed lord).neat).dropHeirs t k).changed t).stale
    refine ⟨(((hw3.changed lord).dropHeirs t k).changed t).mono (by tauto), fun u j => ?_,
      fun u e => ?_, fun j u hju => ?_⟩
    · rw [locate_changed, locate_dropHeirs, locate_changed, hc.locate, locate_removeHeir,
        locate_removePie h]
      by_cases hk : u = t ∧ j = k
      · simp [hk]
      have hiff : w.origin pie = some (j, u) ↔ u = lord ∧ j = parent := by
        rw [ho, some.injEq, Prod.mk.injEq]
        exact ⟨fun hx => ⟨hx.2.symm, hx.1.symm⟩, fun hx => ⟨hx.2.symm, hx.1.symm⟩⟩
      simp only [hk, if_false, hiff]
    · rw [edges_changed, mem_edges_dropHeirs, edges_changed,
        hc.edges, mem_edges_removeHeir hw1.neat,
        edges_removePie]
      simp only [ho, some.injEq, Prod.mk.injEq]
      constructor
      · rintro ⟨⟨he, hn⟩, hd⟩
        exact ⟨he, hd, fun hx => hn ⟨hx.1.2.symm, hx.1.1.symm, hx.2⟩⟩
      · rintro ⟨he, hd, hn⟩
        exact ⟨⟨he, fun hx => hn ⟨⟨hx.2.1.symm, hx.1.symm⟩, hx.2.2⟩⟩, hd⟩
    · rw [ho, some.injEq, Prod.mk.injEq] at hju
      exact hju.2 ▸ hlater

end

/-! ## Vesting a pie -/

section
variable {w : World} {caller dst : TaskId} {pie granted : Pie}

/-- One pie is granted under another. -/
structure VestSpec (w w' : World) (caller : TaskId) (pie : Pie) (dst : TaskId) (granted : Pie) :
    Prop extends Writes w w' fun _ => False where
  locate : ∀ u j, w'.locate u j =
    if u = dst ∧ j = granted.token then some granted
    else if u = caller ∧ j = pie.token then some (pie.vested dst granted.token)
    else w.locate u j
  edges : ∀ u e, e ∈ w'.edges u ↔
    e ∈ w.edges u ∨ u = caller ∧ e = ⟨pie.token, dst, granted.token⟩

theorem vest_spec (h : w.Neat) (hc : w.locate caller pie.token = some pie)
    (hd : w.upgrade dst = true) (hne : granted.token ≠ pie.token)
    (hfresh : w.locate dst granted.token = none)
    (hpair : ∀ e ∈ w.edges caller, e.token ≠ granted.token) :
    VestSpec w (w.vest caller pie dst granted) caller pie dst granted := by
  have hup := upgrade_of_locate hc
  -- the edge and the heir, before the pie itself is pushed
  obtain ⟨w2, hw2, hwr, hl2, he2⟩ : ∃ w2, (if pie.permission.contains .only then
      (w.insertHeir caller pie.token dst granted.token).modifyPie caller pie.token
        fun q => q.setHeir (some ⟨dst, granted.token⟩)
      else w.insertHeir caller pie.token dst granted.token) = w2 ∧
      Writes w w2 (fun u => u = caller) ∧ (∀ u j, w2.locate u j =
        if u = caller ∧ j = pie.token then some (pie.vested dst granted.token) else w.locate u j) ∧
      ∀ u e, e ∈ w2.edges u ↔ e ∈ w.edges u ∨ u = caller ∧ e = ⟨pie.token, dst, granted.token⟩ := by
    have hw1 : Writes w (w.insertHeir caller pie.token dst granted.token) _ :=
      (Writes.refl h).insertHeir fun e he hx => hpair e he hx.2
    unfold Pie.vested
    split
    · have hw2 : Writes w ((w.insertHeir caller pie.token dst granted.token).modifyPie caller
          pie.token fun q => q.setHeir (some ⟨dst, granted.token⟩)) _ :=
        hw1.modifyPie caller fun _ => id
      refine ⟨_, rfl, hw2.mono (by tauto), fun u j => ?_, fun u e => ?_⟩
      · rw [locate_modifyPie (g := fun q => q.setHeir (some ⟨dst, granted.token⟩)) fun _ => id,
          locate_insertHeir, locate_insertHeir, hc, map_some]
      · rw [edges_modifyPie, mem_edges_insertHeir hup]
    refine ⟨_, rfl, hw1.mono (by tauto), fun u j => ?_, fun u e => ?_⟩
    · rw [locate_insertHeir]
      split
      · next hx => rw [hx.1, hx.2, hc]
      · rfl
    · rw [mem_edges_insertHeir hup]
  have hfresh2 : w2.locate dst granted.token = none := by
    rw [hl2, if_neg fun hx => hne hx.2, hfresh]
  have hd2 : w2.upgrade dst = true := by rw [hwr.frame.upgrade, hd]
  have hw3 := (hwr.push hfresh2).changed caller
  unfold World.vest
  dsimp only
  rw [hw2]
  split
  · next heq =>
    subst heq
    refine ⟨hw3.mono (by tauto), fun u j => ?_, fun u e => ?_⟩
    · rw [locate_changed, locate_push hd2 hfresh2, hl2]
    · rw [edges_changed, edges_push, he2]
  refine ⟨(hw3.changed dst).mono (by tauto), fun u j => ?_, fun u e => ?_⟩
  · rw [locate_changed, locate_changed, locate_push hd2 hfresh2, hl2]
  · rw [edges_changed, edges_changed, edges_push, he2]

end

/-! ## Giving children a new parent -/

/-- The pies `l` get one parent. -/
structure ReparentSpec (w w' : World) (lord : TaskId) (parent : Token)
    (l : List (TaskId × Token)) : Prop extends Writes w w' fun u => u = lord where
  locate : ∀ u j, w'.locate u j =
    if (u, j) ∈ l then (w.locate u j).map (Pie.parent · parent lord) else w.locate u j
  edges : ∀ u e, e ∈ w'.edges u ↔
    e ∈ w.edges u ∨ u = lord ∧ e.parent = parent ∧ (e.task, e.token) ∈ l

theorem reparent_spec {lord : TaskId} (parent : Token) (l : List (TaskId × Token))
    (h : w.Neat) (hlord : w.upgrade lord = true) (hn : (l.map Prod.snd).Nodup)
    (hheld : ∀ x ∈ l, (w.locate x.1 x.2).isSome)
    (hpair : ∀ x ∈ l, ∀ e ∈ w.edges lord, ¬ (e.parent = parent ∧ e.token = x.2)) :
    ∃ w', reparent lord parent l w = some w' ∧ ReparentSpec w w' lord parent l := by
  induction l generalizing w with
  | nil =>
    exact ⟨w, rfl, (Writes.refl h).mono (by simp), by simp, by simp⟩
  | cons x l ih =>
    obtain ⟨t, k⟩ := x
    obtain ⟨hk, hl⟩ := nodup_cons.1 (map_cons ▸ hn)
    have hkl : ∀ u, (u, k) ∉ l := fun u hu => hk (List.mem_map.2 ⟨_, hu, rfl⟩)
    have hne : ∀ y ∈ l, y.2 ≠ k := fun y hy he => hk (List.mem_map.2 ⟨y, hy, he⟩)
    obtain ⟨w1, hw1⟩ : ∃ w1, w1 = ((w.modifyPie t k fun q => q.parent parent lord).insertHeir
      lord parent t k).changed t := ⟨_, rfl⟩
    have hw0 : Writes w (w.modifyPie t k fun q => q.parent parent lord) _ :=
      (Writes.refl h).modifyPie t fun _ => id
    have hup0 := (hw0.frame.upgrade lord).trans hlord
    have hwr : Writes w w1 fun u => u = lord := by
      rw [hw1]
      refine ((hw0.insertHeir ?_).changed t).mono (by tauto)
      rw [edges_modifyPie]
      exact hpair (t, k) mem_cons_self
    have hl1 : ∀ u j, w1.locate u j =
        if u = t ∧ j = k then (w.locate t k).map (Pie.parent · parent lord) else w.locate u j := by
      intro u j
      rw [hw1, locate_changed, locate_insertHeir,
        locate_modifyPie (g := fun q => q.parent parent lord) fun _ => id]
    have he1 : ∀ u e, e ∈ w1.edges u ↔ e ∈ w.edges u ∨ u = lord ∧ e = ⟨parent, t, k⟩ := by
      intro u e
      rw [hw1, edges_changed, mem_edges_insertHeir hup0, edges_modifyPie]
    obtain ⟨w', hw', hspec⟩ := ih hwr.neat (by rw [hwr.frame.upgrade, hlord]) hl
      (fun y hy => by
        rw [hl1, if_neg fun hx => hne y hy hx.2]
        exact hheld y (mem_cons_of_mem _ hy))
      (fun y hy e he hx => by
        rcases (he1 lord e).1 he with he | ⟨_, rfl⟩
        · exact hpair y (mem_cons_of_mem _ hy) e he hx
        · exact hne y hy hx.2.symm)
    refine ⟨w', ?_, hwr.trans hspec.toWrites, fun u j => ?_, fun u e => ?_⟩
    · have hsome : (w.locate t k).isNone = false := by
        simpa using hheld (t, k) mem_cons_self
      rw [reparent, hsome, ← hw1]
      exact hw'
    · rw [hspec.locate, hl1]
      by_cases hx : u = t ∧ j = k
      · obtain ⟨rfl, rfl⟩ := hx
        simp [hkl]
      · simp only [hx, if_false, mem_cons, Prod.mk.injEq, false_or]
    · rw [hspec.edges, he1]
      constructor
      · rintro ((he | ⟨hu, rfl⟩) | ⟨hu, hp, hm⟩)
        · exact .inl he
        · exact .inr ⟨hu, rfl, mem_cons_self⟩
        · exact .inr ⟨hu, hp, mem_cons_of_mem _ hm⟩
      rintro (he | ⟨hu, hp, hm⟩)
      · exact .inl (.inl he)
      rcases mem_cons.1 hm with hx | hm
      · rw [Prod.mk.injEq] at hx
        refine .inl (.inr ⟨hu, ?_⟩)
        cases e
        simp_all
      · exact .inr ⟨hu, hp, hm⟩

end Sqware.Ledger
