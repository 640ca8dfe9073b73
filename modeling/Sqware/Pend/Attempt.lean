import Sqware.Pend.Refine

/-!
# What a walk knows

A walk records the version of a ledger when it first reads it.  While other sections run, what it
read of a ledger stands as long as the version is the recorded one (`Noted`): a section that
writes a ledger gives it a later version (`Drift`).  `Seen` is what the walk knows at each of its
sections; at the last one, if every version is the recorded one or the relations match, the nodes
are those reachable from the root (`Seen.of_versions`, `Seen.of_relations`).
-/

namespace Sqware.Ledger

open List Option Bool

/-! ## Other sections -/

/-- Ledgers of tasks there were differ only at later versions; no task comes back. -/
def Drift (w w' : World) : Prop :=
  ∀ t, t < w.nextTask → ∀ p', w'.pends t = some p' →
    ∃ p, w.pends t = some p ∧ p.version ≤ p'.version ∧ (p' = p ∨ p.version < p'.version)

variable {w' w : World}

theorem Acts.drift (h : Acts w w') : Drift w w' := by
  intro t _ p' hp'
  obtain ⟨p, hp, hle, hc⟩ := h.bumps t p' hp'
  exact ⟨p, hp, hle, hc.imp_right fun hc => hc.resolve_right id⟩

variable {t : TaskId}

theorem Drift.upgrade (h : Drift w w') (ht : t < w.nextTask) (hu : w'.upgrade t = true) :
    w.upgrade t = true := by
  obtain ⟨p', hp'⟩ := isSome_iff_exists.1 hu
  obtain ⟨p, hp, _⟩ := h t ht p' hp'
  simp [World.upgrade, hp]

/-! ## What is known of a ledger -/

/-- The property holds of the ledger of `t` unless its version is no longer the recorded one. -/
def Noted (w : World) (tasks : List (TaskId × Nat)) (t : TaskId) (P : Pend → Prop) : Prop :=
  ∃ v, (t, v) ∈ tasks ∧ ∀ p, w.pends t = some p → p.version = v → P p

/-- The walk recorded `tasks`, found `nodes` and read the first `read` of them. -/
structure Seen (call : Call) (w : World) (tasks : List (TaskId × Nat))
    (nodes : List (TaskId × Token)) (read : Nat) : Prop where
  head : nodes.head? = some (call.task, call.token)
  recorded : ∀ x ∈ tasks, ∃ p, w.pends x.1 = some p ∧ x.2 ≤ p.version
  noted : ∀ i x, nodes[i]? = some x → i < read → Noted w tasks x.1 fun p =>
    (∃ q, Keyed.get Pie.token p.pies x.2 = some q) ∧ (call.recursive = true →
      ∀ e ∈ p.heirs, e.parent = x.2 → w.upgrade e.task = true → (e.task, e.token) ∈ nodes)
  pushed : ∀ y ∈ nodes.tail, ∃ x ∈ nodes, Noted w tasks x.1 fun p =>
    ⟨x.2, y.1, y.2⟩ ∈ p.heirs

section
variable {call : Call} {w : World} {tasks tasks' : List (TaskId × Nat)}
  {nodes : List (TaskId × Token)} {read : Nat} {P : Pend → Prop}

theorem Noted.mono {Q : Pend → Prop} (h : Noted w tasks t P) (hsub : ∀ x ∈ tasks, x ∈ tasks')
    (hPQ : ∀ p, w.pends t = some p → P p → Q p) : Noted w tasks' t Q := by
  obtain ⟨v, hv, hp⟩ := h
  exact ⟨v, hsub _ hv, fun p hpt he => hPQ p hpt (hp p hpt he)⟩

theorem Noted.of_now {v : Nat} (hv : (t, v) ∈ tasks) (hP : ∀ p, w.pends t = some p → P p) :
    Noted w tasks t P :=
  ⟨v, hv, fun p hp _ => hP p hp⟩

theorem Seen.extend (h : Seen call w tasks nodes read) (hsub : ∀ x ∈ tasks, x ∈ tasks')
    (hrec : ∀ x ∈ tasks', ∃ p, w.pends x.1 = some p ∧ x.2 ≤ p.version) :
    Seen call w tasks' nodes read where
  head := h.head
  recorded := hrec
  noted i x hx hi := (h.noted i x hx hi).mono hsub fun _ _ => id
  pushed y hy := by
    obtain ⟨x, hx, hn⟩ := h.pushed y hy
    exact ⟨x, hx, hn.mono hsub fun _ _ => id⟩

theorem Noted.drift {Q : Pend → Prop} (h : Noted w tasks t P) (hd : Drift w w') (ht : Tree w.grove)
    (hrec : ∀ x ∈ tasks, ∃ p, w.pends x.1 = some p ∧ x.2 ≤ p.version)
    (hPQ : ∀ p, w.pends t = some p → P p → Q p) : Noted w' tasks t Q := by
  obtain ⟨v, hv, hP⟩ := h
  refine ⟨v, hv, fun p' hp' he => ?_⟩
  obtain ⟨p, hp, hle⟩ := hrec _ hv
  have hlt : t < w.nextTask := ht.present_known (by simp [World.grove, World.upgrade, hp])
  -- the recorded version is the oldest and the newest, so nothing was written
  obtain ⟨q, hq, hle', hc⟩ := hd t hlt p' hp'
  cases hp.symm.trans hq
  have hpp : p' = p := hc.resolve_right (by change v ≤ p.version at hle; omega)
  subst hpp
  exact hPQ p' hp (hP p' hp he)

/-- Other sections leave standing what the walk knows. -/
theorem Seen.drift (h : Seen call w tasks nodes read) (hi : Inv w) (hd : Drift w w')
    (hup : ∀ x ∈ tasks, w'.upgrade x.1 = true) : Seen call w' tasks nodes read where
  head := h.head
  recorded x hx := by
    obtain ⟨p, hp, hle⟩ := h.recorded x hx
    obtain ⟨p', hp'⟩ := isSome_iff_exists.1 (hup x hx)
    have hlt : x.1 < w.nextTask :=
      hi.tree.present_known (by simp [World.grove, World.upgrade, hp])
    obtain ⟨q, hq, hle', _⟩ := hd x.1 hlt p' hp'
    cases hp.symm.trans hq
    exact ⟨p', hp', hle.trans hle'⟩
  noted i x hx hlt := by
    refine (h.noted i x hx hlt).drift hd hi.tree h.recorded fun p hp hP => ⟨hP.1, ?_⟩
    intro hrec e he hpar hu
    have hk : e.task < w.nextTask := hi.tree.edge_known (mem_edges.2 ⟨p, hp, he⟩)
    exact hP.2 hrec e he hpar (hd.upgrade hk hu)
  pushed y hy := by
    obtain ⟨x, hx, hn⟩ := h.pushed y hy
    exact ⟨x, hx, hn.drift hd hi.tree h.recorded fun _ _ => id⟩

/-! ## The last section -/

theorem Seen.of_versions (h : Seen call w tasks nodes nodes.length)
    (hrec : call.recursive = true)
    (hv : ∀ x ∈ tasks, ∀ p, w.pends x.1 = some p → p.version = x.2) :
    Matches w (call.task, call.token) nodes := by
  have hnoted : ∀ {t P}, Noted w tasks t P → ∃ p, w.pends t = some p ∧ P p := by
    rintro t P ⟨v, hm, hP⟩
    obtain ⟨p, hp, _⟩ := h.recorded _ hm
    exact ⟨p, hp, hP p hp (hv _ hm p hp)⟩
  have hread : ∀ x ∈ nodes, Noted w tasks x.1 fun p =>
      (∃ q, Keyed.get Pie.token p.pies x.2 = some q) ∧ (call.recursive = true →
        ∀ e ∈ p.heirs, e.parent = x.2 → w.upgrade e.task = true → (e.task, e.token) ∈ nodes) := by
    intro x hx
    obtain ⟨i, hlt, rfl⟩ := mem_iff_getElem.1 hx
    exact h.noted i _ (getElem?_eq_getElem hlt) hlt
  constructor
  case head => exact h.head
  case held =>
    intro x hx
    obtain ⟨p, hp, ⟨q, hq⟩, _⟩ := hnoted (hread x hx)
    exact ⟨q, by rw [World.locate, hp]; exact hq⟩
  case children =>
    rintro x hx y ⟨he, hu⟩
    obtain ⟨p, hp, _, hc⟩ := hnoted (hread x hx)
    obtain ⟨p', hp', hm⟩ := mem_edges.1 he
    cases hp.symm.trans hp'
    exact hc hrec _ hm rfl hu
  case parents =>
    intro y hy
    obtain ⟨x, hx, hn⟩ := h.pushed y hy
    obtain ⟨p, hp, hm⟩ := hnoted hn
    exact ⟨x, hx, mem_edges.2 ⟨p, hp, hm⟩⟩

/-- What `relations_match` finds at one node. -/
theorem relationsMatch_at (hm : relationsMatch w tasks nodes = true) {i : Nat} {x : TaskId × Token}
    (hx : nodes[i]? = some x) :
    ∃ pie, w.locate x.1 x.2 = some pie ∧
      (i = 0 ∨ ∃ parent lord, (i ≠ 0 → (lord, parent) ∈ nodes) ∧
        ⟨parent, x.1, x.2⟩ ∈ w.edges lord) ∧
      ∀ e ∈ Multi.run Edge.parent (w.edges x.1) x.2, w.upgrade e.task = true →
        (e.task, e.token) ∈ nodes.tail := by
  have hat := List.all_eq_true.1 hm (x, i) (mem_zipIdx_iff_getElem?.2 hx)
  obtain ⟨t, token⟩ := x
  dsimp only at hat ⊢
  split at hat
  · simp at hat
  next pie hl =>
  rw [and_eq_true] at hat
  refine ⟨pie, hl, ?_, ?_⟩
  · have hpar := hat.1
    split at hpar
    · next parent lord _ _ =>
      rw [and_eq_true, List.any_eq_true] at hpar
      obtain ⟨hin, e, he, heq⟩ := hpar
      rw [decide_eq_true_eq] at heq
      subst heq
      refine .inr ⟨parent, lord, fun h0 => ?_, he⟩
      rw [if_neg h0, List.any_eq_true] at hin
      obtain ⟨y, hy, hye⟩ := hin
      rw [decide_eq_true_eq] at hye
      exact hye ▸ hy
    · simp at hpar
    · exact .inl (by simpa using hpar)
  · intro e he hu
    have := List.all_eq_true.1 hat.2 e he
    rw [hu, Bool.not_true, Bool.false_or, List.any_eq_true] at this
    obtain ⟨y, hy, hye⟩ := this
    rw [decide_eq_true_eq] at hye
    exact hye ▸ hy

theorem Seen.of_relations (h : Seen call w tasks nodes nodes.length) (hi : Inv w)
    (hm : relationsMatch w tasks nodes = true) :
    Matches w (call.task, call.token) nodes := by
  constructor
  case head => exact h.head
  case held =>
    intro x hx
    obtain ⟨i, hlt, rfl⟩ := mem_iff_getElem.1 hx
    obtain ⟨pie, hl, _⟩ := relationsMatch_at hm (getElem?_eq_getElem hlt)
    exact ⟨pie, hl⟩
  case children =>
    rintro x hx y ⟨he, hu⟩
    obtain ⟨i, hlt, rfl⟩ := mem_iff_getElem.1 hx
    obtain ⟨pie, hl, _, hc⟩ := relationsMatch_at hm (getElem?_eq_getElem hlt)
    obtain ⟨p, hp, hmem⟩ := mem_edges.1 he
    have hsort : Multi.Sorted Edge.parent (w.edges nodes[i].1) := by
      rw [World.edges, hp]
      exact (hi.neat _ p hp).sorted
    exact mem_of_mem_tail (hc _ ((Multi.mem_run hsort).2 ⟨he, rfl⟩) hu)
  case parents =>
    intro y hy
    obtain ⟨i, hlt, rfl⟩ := mem_iff_getElem.1 hy
    rw [getElem_tail]
    have hlt' : i + 1 < nodes.length := by
      rw [length_tail] at hlt
      omega
    obtain ⟨pie, hl, hpar, _⟩ := relationsMatch_at hm (getElem?_eq_getElem hlt')
    rcases hpar with h0 | ⟨parent, lord, hin, he⟩
    · omega
    · exact ⟨(lord, parent), hin (by omega), he⟩

end

/-! ## The sections of a walk -/

/-- How many nodes were read. -/
def Collect.read (c : Collect) : Nat := if c.parent.isSome then 1 else c.cursor

variable {room : Bool}

theorem observe_spec {tasks tasks' : List (TaskId × Nat)} {v : Nat}
    (h : observe room tasks t v = .ok tasks') :
    (∀ x ∈ tasks, x ∈ tasks') ∧ (∃ v', (t, v') ∈ tasks') ∧ ∀ x ∈ tasks', x ∈ tasks ∨
      x = (t, v) := by
  unfold observe at h
  split at h
  · next hany =>
    cases h
    obtain ⟨x, hx, he⟩ := List.any_eq_true.1 hany
    rw [decide_eq_true_eq] at he
    exact ⟨fun _ => id, ⟨x.2, he ▸ hx⟩, fun _ => .inl⟩
  split at h
  · cases h
    refine ⟨fun x hx => mem_append_left _ hx, ⟨v, by simp⟩, fun x hx => ?_⟩
    simpa using hx
  · simp at h

variable {p : Pend}

theorem mem_children (hn : w.Neat) (hp : w.pends t = some p) {k : Token}
    {y : TaskId × Token} : y ∈ w.children p k ↔ ⟨k, y.1, y.2⟩ ∈ p.heirs ∧ w.upgrade y.1 = true := by
  unfold World.children
  simp only [List.mem_map, mem_filter, Multi.mem_run (hn t p hp).sorted]
  constructor
  · rintro ⟨e, ⟨⟨he, rfl⟩, hu⟩, rfl⟩
    exact ⟨he, hu⟩
  · rintro ⟨he, hu⟩
    exact ⟨⟨k, y.1, y.2⟩, ⟨⟨he, rfl⟩, hu⟩, rfl⟩

section
variable {call : Call} {w : World} {f : Facts}

theorem recorded_of_observe {tasks tasks' : List (TaskId × Nat)}
    (hrec : ∀ x ∈ tasks, ∃ p, w.pends x.1 = some p ∧ x.2 ≤ p.version) (hp : w.pends t = some p)
    (h : observe room tasks t p.version = .ok tasks') :
    ∀ x ∈ tasks', ∃ p, w.pends x.1 = some p ∧ x.2 ≤ p.version := by
  intro x hx
  rcases (observe_spec h).2.2 x hx with hx | rfl
  · exact hrec x hx
  · exact ⟨p, hp, le_rfl⟩

/-- The task of the root's parent, after the node at the cursor was read. -/
def Collect.pending (c : Collect) (w : World) (pie : Pie) : Option TaskId :=
  if c.cursor = 0 then pie.lord.filter w.upgrade else none

/-- The nodes, after the node at the cursor was read. -/
def Collect.found (c : Collect) (w : World) (recursive : Bool) (p : Pend) (token : Token) :
    List (TaskId × Token) :=
  c.nodes ++ if c.cursor = 0 || recursive then w.children p token else []

variable {c : Collect}

theorem pending_cursor {pie : Pie} (h : (c.pending w pie).isSome) : c.cursor = 0 := by
  unfold Collect.pending at h
  split at h
  · next h0 => exact h0
  · simp at h

theorem read_next (c : Collect) (pie : Pie) (tasks : List (TaskId × Nat))
    (nodes : List (TaskId × Token)) :
    Collect.read ⟨tasks, nodes, if (c.pending w pie).isSome then c.cursor else c.cursor + 1,
      c.pending w pie⟩ = c.cursor + 1 := by
  unfold Collect.read
  by_cases hs : (c.pending w pie).isSome
  · simp [hs, pending_cursor hs]
  · simp [hs]

theorem collect_step {recursive : Bool} {c' : Collect} (h : c.step f recursive w = .ok c') :
    (∃ lord p tasks, c.parent = some lord ∧ w.pends lord = some p ∧
      observe (f.room 0) c.tasks lord p.version = .ok tasks ∧
      c' = ⟨tasks, c.nodes, c.cursor + 1, none⟩) ∨
    c' = c ∨
    ∃ t token p pie tasks, c.parent = none ∧ c.nodes[c.cursor]? = some (t, token) ∧
      w.pends t = some p ∧ w.locate t token = some pie ∧
      observe (f.room 0) c.tasks t p.version = .ok tasks ∧
      c' = ⟨tasks, c.found w recursive p token,
        if (c.pending w pie).isSome then c.cursor else c.cursor + 1, c.pending w pie⟩ := by
  unfold Collect.step at h
  split at h
  · next lord hpar =>
    split at h
    · simp at h
    next p hp =>
    cases ho : observe (f.room 0) c.tasks lord p.version with
    | error e => simp [ho, Except.map] at h
    | ok tasks =>
      rw [ho] at h
      exact .inl ⟨lord, p, tasks, hpar, hp, ho, (Except.ok.inj h).symm⟩
  · exact .inr (.inl (Except.ok.inj h).symm)
  next t token hpar hnode =>
  split at h
  · simp at h
  next p hp =>
  split at h
  · simp at h
  · simp at h
  next tasks pie ho hl =>
  by_cases hroom : (!(if (decide (c.cursor = 0) || recursive) = true then w.children p token
      else []).isEmpty && !f.room 1) = true
  · rw [if_pos hroom] at h
    simp at h
  · rw [if_neg hroom] at h
    exact .inr (.inr ⟨t, token, p, pie, tasks, hpar, hnode, hp, hl, ho, (Except.ok.inj h).symm⟩)

theorem Seen.step {c' : Collect} (hi : Inv w) (h : Seen call w c.tasks c.nodes c.read)
    (hcur : c.parent.isSome → c.cursor = 0) (hc : c.step f call.recursive w = .ok c') :
    Seen call w c'.tasks c'.nodes c'.read ∧ (c'.parent.isSome → c'.cursor = 0) := by
  rcases collect_step hc with ⟨lord, p, tasks, hpar, hp, ho, rfl⟩ | rfl |
    ⟨t, token, p, pie, tasks, hpar, hnode, hp, hl, ho, rfl⟩
  · have hread : c.read = 1 := if_pos (by rw [hpar]; rfl)
    have h0 : c.cursor = 0 := hcur (by rw [hpar]; rfl)
    obtain ⟨hsub, _⟩ := observe_spec ho
    have hext := h.extend hsub (recorded_of_observe h.recorded hp ho)
    rw [hread] at hext
    exact ⟨by simpa [Collect.read, h0] using hext, by simp⟩
  · exact ⟨h, hcur⟩
  obtain ⟨hsub, ⟨v, hv⟩, _⟩ := observe_spec ho
  have hread : c.read = c.cursor := if_neg (by rw [hpar]; simp)
  have hnow : ∀ p', w.pends t = some p' → p' = p := fun p' hp' =>
    some.inj (hp'.symm.trans hp)
  have hin : ∀ x ∈ c.nodes, x ∈ c.found w call.recursive p token :=
    fun x hx => mem_append_left _ hx
  have hne : c.nodes ≠ [] := by
    rintro he
    simp [he] at hnode
  refine ⟨?_, fun hs => by simp only at hs ⊢; rw [if_pos hs]; exact pending_cursor hs⟩
  rw [read_next]
  constructor
  case head =>
    rw [Collect.found, head?_append_of_ne_nil _ hne]
    exact h.head
  case recorded => exact recorded_of_observe h.recorded hp ho
  case noted =>
    intro i x hx hlt
    rcases Nat.lt_succ_iff_lt_or_eq.1 hlt with hlt | rfl
    · have hilt : i < c.nodes.length := hlt.trans (List.getElem?_eq_some_iff.1 hnode).1
      rw [Collect.found, getElem?_append_left hilt] at hx
      refine (h.noted i x hx (hread ▸ hlt)).mono hsub fun p' _ hP => ⟨hP.1, ?_⟩
      exact fun hr e he hpe hu => hin _ (hP.2 hr e he hpe hu)
    have hilt : c.cursor < c.nodes.length := (List.getElem?_eq_some_iff.1 hnode).1
    rw [Collect.found, getElem?_append_left hilt, hnode, some.injEq] at hx
    subst hx
    refine Noted.of_now hv fun p' hp' => ?_
    obtain rfl := hnow p' hp'
    rw [World.locate, hp, bind_some] at hl
    refine ⟨⟨pie, hl⟩, fun hr e he hpe hu => mem_append_right _ ?_⟩
    rw [hr, Bool.or_true, if_pos rfl, mem_children hi.neat hp]
    have hpe' : e.parent = token := hpe
    exact ⟨by rw [← hpe']; exact he, hu⟩
  case pushed =>
    intro y hy
    rw [Collect.found, tail_append_of_ne_nil hne] at hy
    rcases mem_append.1 hy with hy | hy
    · obtain ⟨x, hx, hn⟩ := h.pushed y hy
      exact ⟨x, hin x hx, hn.mono hsub fun _ _ => id⟩
    refine ⟨(t, token), hin _ (mem_of_getElem? hnode), Noted.of_now hv fun p' hp' => ?_⟩
    obtain rfl := hnow p' hp'
    split at hy
    · exact ((mem_children hi.neat hp).1 hy).1
    · simp at hy

end

/-! ## Runs -/

section
variable {β : Type}

/-- The tasks the walk keeps alive. -/
def Phase.arcs (call : Call) : Phase β → List TaskId
  | .collect _ c | .observe _ c =>
    call.task :: call.caller.toList ++ c.tasks.map Prod.fst ++
      c.nodes.map Prod.fst ++ c.parent.toList
  | .commit _ tasks nodes =>
    call.task :: call.caller.toList ++ tasks.map Prod.fst ++ nodes.map Prod.fst
  | _ => call.task :: call.caller.toList

/-- One section of the walk, or one of others that keeps alive what the walk does. -/
inductive Turn (call : Call) (finish : Finish β) (others : World → World → Prop) :
    World × Phase β → World × Phase β → Prop
  | own {w w' : World} {ph ph' : Phase β} (f : Facts)
      (h : ph.step call finish f w = some (w', ph')) : Turn call finish others (w, ph) (w', ph')
  | other {w w' : World} {ph : Phase β} (h : others w w')
      (ha : ∀ t ∈ ph.arcs call, w'.upgrade t = true) : Turn call finish others (w, ph) (w', ph)

/-- What the walk knows at each of its sections. -/
def Phase.Seen (call : Call) (w : World) : Phase β → Prop
  | .locate _ => True
  | .collect _ c => Ledger.Seen call w c.tasks c.nodes c.read ∧
      (c.parent.isSome → c.cursor = 0)
  | .observe _ c => Ledger.Seen call w c.tasks c.nodes c.nodes.length
  | .commit _ tasks nodes => Ledger.Seen call w tasks nodes nodes.length
  | .done _ => True

variable {call : Call} {finish : Finish β} {others : World → World → Prop}

theorem seen_start (call : Call) (w : World) :
    Ledger.Seen call w [] [(call.task, call.token)] 0 where
  head := rfl
  recorded := by simp
  noted := by simp
  pushed := by simp

/-- The versions the walk recorded. -/
def Phase.observed : Phase β → List (TaskId × Nat)
  | .collect _ c | .observe _ c => c.tasks
  | .commit _ tasks _ => tasks
  | _ => []

variable {f : Facts}

theorem observeCaller_spec {caller : Option TaskId}
    {tasks tasks' : List (TaskId × Nat)} (h : observeCaller f w caller tasks = .ok tasks') :
    (∀ x ∈ tasks, x ∈ tasks') ∧ ∀ x ∈ tasks', x ∈ tasks ∨ ∃ p, w.pends x.1 = some p ∧
      x.2 = p.version := by
  unfold observeCaller at h
  split at h
  · cases h
    exact ⟨fun _ => id, fun _ => .inl⟩
  split at h
  · simp at h
  next p hp =>
  obtain ⟨hsub, _, hnew⟩ := observe_spec h
  refine ⟨hsub, fun x hx => (hnew x hx).imp_right ?_⟩
  rintro rfl
  exact ⟨p, hp, rfl⟩

theorem mem_sortTasks {tasks : List (TaskId × Nat)} {x : TaskId × Nat} :
    x ∈ sortTasks tasks ↔ x ∈ tasks :=
  (perm_insertionSort _ tasks).mem_iff

/-- What one section of a walk can do. -/
inductive Goes (call : Call) (finish : Finish β) (f : Facts) (w : World) :
    Phase β → World → Phase β → Prop
  | fails {ph : Phase β} {e : PieFail} : Goes call finish f w ph w (.done (.error e))
  | again {ph : Phase β} {n : Nat} : Goes call finish f w ph w (.locate n)
  | begins {ph : Phase β} {n : Nat} :
      Goes call finish f w ph w (.collect n (.start call.task call.token))
  | reads {n : Nat} {c c' : Collect} (h : c.step f call.recursive w = .ok c') :
      Goes call finish f w (.collect n c) w (.collect n c')
  | finishes {n : Nat} {c : Collect} (h : c.finished = true) :
      Goes call finish f w (.collect n c) w (.observe n c)
  | observes {n : Nat} {c : Collect} {tasks : List (TaskId × Nat)}
      (h : observeCaller f w call.caller c.tasks = .ok tasks) :
      Goes call finish f w (.observe n c) w (.commit n (sortTasks tasks) c.nodes)
  | busy {n : Nat} {tasks : List (TaskId × Nat)} {nodes : List (TaskId × Token)} {w' : World}
      (h : finish f w tasks nodes = some (.error .busy, w')) :
      Goes call finish f w (.commit n tasks nodes) w' (.locate n)
  | stops {n : Nat} {tasks : List (TaskId × Nat)} {nodes : List (TaskId × Token)} {w' : World}
      {e : PieFail} (h : finish f w tasks nodes = some (.error e, w')) :
      Goes call finish f w (.commit n tasks nodes) w' (.done (.error e))
  | commits {n : Nat} {tasks : List (TaskId × Nat)} {nodes : List (TaskId × Token)} {w' : World}
      {r : Except PieFail β} (h : finish f w tasks nodes = some (.ok r, w')) :
      Goes call finish f w (.commit n tasks nodes) w' (.done r)
  | rests {r : Except PieFail β} : Goes call finish f w (.done r) w (.done r)

variable {ph ph' : Phase β}

theorem goes_of_step (hs : ph.step call finish f w = some (w', ph')) :
    Goes call finish f w ph w' ph' := by
  cases ph with
  | locate n =>
    cases n with
    | zero =>
      cases hs
      exact .fails
    | succ n =>
      simp only [Phase.step] at hs
      split at hs
      · cases hs
        exact .fails
      split at hs
      · cases hs
        exact .fails
      cases hs
      exact .begins
  | collect n c =>
    simp only [Phase.step] at hs
    split at hs
    · next hf =>
      cases hs
      exact .finishes hf
    split at hs
    · cases hs
      exact .again
    · cases hs
      exact .fails
    · next c' hc =>
      cases hs
      exact .reads hc
  | observe n c =>
    simp only [Phase.step] at hs
    split at hs
    · cases hs
      exact .fails
    next tasks ho =>
    split at hs
    · cases hs
      exact .fails
    cases hs
    exact .observes ho
  | commit n tasks nodes =>
    obtain ⟨⟨r, w1⟩, hfinish, hs⟩ := map_eq_some_iff.1 hs
    split at hs
    · next heq =>
      cases heq
      cases hs
      exact .busy hfinish
    · next heq =>
      cases heq
      cases hs
      exact .stops hfinish
    next heq =>
    cases heq
    cases hs
    exact .commits hfinish
  | done r =>
    cases hs
    exact .rests

/-- A last section that does not end the walk well changes nothing. -/
abbrev Keeps (finish : Finish β) : Prop := ∀ f w tasks nodes r w',
  finish f w tasks nodes = some (r, w') → (∃ b, r = .ok (.ok b)) ∨ w' = w

/-- One section of the walk that does not end it changes nothing and keeps what the walk knows. -/
theorem seen_step (hi : Inv w)
    (hfin : Keeps finish) (h : ph.Seen call w) (hg : Goes call finish f w ph w' ph') :
    (∃ r, ph' = .done r) ∨ w' = w ∧ ph'.Seen call w := by
  cases hg with
  | again => exact .inr ⟨rfl, trivial⟩
  | begins => exact .inr ⟨rfl, seen_start call _, by simp [Collect.start]⟩
  | reads hc => exact .inr ⟨rfl, h.1.step hi h.2 hc⟩
  | @finishes n c hf =>
    obtain ⟨h, -⟩ := h
    simp only [Collect.finished, and_eq_true, isNone_iff_eq_none, decide_eq_true_eq] at hf
    have hread : c.read = c.cursor := if_neg (by rw [hf.1]; simp)
    rw [hread] at h
    exact .inr ⟨rfl, { h with noted := fun i x hx hi => h.noted i x hx (hi.trans_le hf.2) }⟩
  | observes ho =>
    obtain ⟨hsub, hnew⟩ := observeCaller_spec ho
    refine .inr ⟨rfl, Seen.extend h (fun x hx => mem_sortTasks.2 (hsub x hx)) fun x hx => ?_⟩
    rcases hnew x (mem_sortTasks.1 hx) with hx | ⟨p, hp, he⟩
    · exact h.recorded x hx
    · exact ⟨p, hp, he.le⟩
  | busy hb => exact .inr ⟨(hfin _ _ _ _ _ _ hb).resolve_left (by simp), trivial⟩
  | _ => exact .inl ⟨_, rfl⟩

variable {a : World × Phase β}

/-- Until it is done, the walk runs in a world that meets the invariant and knows what it saw. -/
theorem turn_seen {b : World × Phase β} (hfin : Keeps finish)
    (hothers : ∀ w w', Inv w → others w w' → Inv w' ∧ Drift w w')
    (h : (∃ r, a.2 = .done r) ∨ Inv a.1 ∧ a.2.Seen call a.1) (hab : Turn call finish others a b) :
    (∃ r, b.2 = .done r) ∨ Inv b.1 ∧ b.2.Seen call b.1 := by
  cases hab with
  | @own w w' ph ph' f hs =>
    rcases h with ⟨r, hr⟩ | ⟨hi, hseen⟩
    · rw [show ph = .done r from hr] at hs
      cases hs
      exact .inl ⟨r, rfl⟩
    · exact (seen_step hi hfin hseen (goes_of_step hs)).imp_right fun ⟨hw, hph⟩ => by
        rw [show w' = w from hw]
        exact ⟨hi, hph⟩
  | @other w w' ph ho ha =>
    refine h.imp_right fun ⟨hi, hseen⟩ => ?_
    obtain ⟨hi', hd⟩ := hothers w w' hi ho
    refine ⟨hi', ?_⟩
    cases ph with
    | locate n => exact trivial
    | collect n c =>
      exact ⟨hseen.1.drift hi hd fun x hx => ha x.1 (by
        simp only [Phase.arcs, mem_append, List.mem_map]
        exact .inl (.inl (.inr ⟨x, hx, rfl⟩))), hseen.2⟩
    | observe n c =>
      exact Seen.drift hseen hi hd fun x hx => ha x.1 (by
        simp only [Phase.arcs, mem_append, List.mem_map]
        exact .inl (.inl (.inr ⟨x, hx, rfl⟩)))
    | commit n tasks nodes =>
      exact Seen.drift hseen hi hd fun x hx => ha x.1 (by
        simp only [Phase.arcs, mem_append, List.mem_map]
        exact .inl (.inr ⟨x, hx, rfl⟩))
    | done r => exact trivial

theorem turns_seen {w0 : World} {n : Nat} (hi : Inv w0) (hfin : Keeps finish)
    (hothers : ∀ w w', Inv w → others w w' → Inv w' ∧ Drift w w')
    (h : Relation.ReflTransGen (Turn call finish others) (w0, .locate n) a) :
    (∃ r, a.2 = .done r) ∨ Inv a.1 ∧ a.2.Seen call a.1 := by
  induction h with
  | refl => exact .inr ⟨hi, trivial⟩
  | tail _ hab ih => exact turn_seen hfin hothers ih hab

/-! ## A walk nobody comes between -/

/-- The recorded versions are those the ledgers have. -/
def Current (w : World) (tasks : List (TaskId × Nat)) : Prop :=
  ∀ x ∈ tasks, ∀ p, w.pends x.1 = some p → p.version = x.2

/-- Where the walk does not go below the children, the nodes are the root and its children. -/
def Shallow (call : Call) (w : World) (nodes : List (TaskId × Token)) (read : Nat) : Prop :=
  call.recursive = false → (read = 0 → nodes.tail = []) ∧
    (0 < read → ∃ p, w.pends call.task = some p ∧ nodes.tail = w.children p call.token)

def Phase.Plain (call : Call) (w : World) : Phase β → Prop
  | .collect _ c => Current w c.tasks ∧ Shallow call w c.nodes c.read
  | .observe _ c => Current w c.tasks ∧ Shallow call w c.nodes c.nodes.length
  | .commit _ tasks nodes => Current w tasks ∧ Shallow call w nodes nodes.length
  | _ => True

theorem current_observe {tasks tasks' : List (TaskId × Nat)} (h : Current w tasks)
    (hp : w.pends t = some p) (ho : observe room tasks t p.version = .ok tasks') :
    Current w tasks' := by
  intro x hx p' hp'
  rcases (observe_spec ho).2.2 x hx with hx | rfl
  · exact h x hx p' hp'
  · exact congrArg Pend.version (some.inj (hp'.symm.trans hp))

theorem Shallow.step {c c' : Collect}
    (hseen : Seen call w c.tasks c.nodes c.read) (hcur : c.parent.isSome → c.cursor = 0)
    (h : Shallow call w c.nodes c.read) (hc : c.step f call.recursive w = .ok c') :
    Shallow call w c'.nodes c'.read := by
  intro hrec
  rcases collect_step hc with ⟨lord, p, tasks, hpar, hp, ho, rfl⟩ | rfl |
    ⟨t, token, p, pie, tasks, hpar, hnode, hp, hl, ho, rfl⟩
  · have hread : c.read = 1 := if_pos (by rw [hpar]; rfl)
    have h0 : c.cursor = 0 := hcur (by rw [hpar]; rfl)
    have := h hrec
    rw [hread] at this
    simpa [Collect.read, h0] using this
  · exact h hrec
  have hread : c.read = c.cursor := if_neg (by rw [hpar]; simp)
  have hne : c.nodes ≠ [] := by
    rintro he
    simp [he] at hnode
  have h' := h hrec
  rw [hread] at h'
  rw [read_next]
  refine ⟨by simp, fun _ => ?_⟩
  simp only [Collect.found, hrec, Bool.or_false, tail_append_of_ne_nil hne]
  by_cases h0 : c.cursor = 0
  · rw [h0, ← head?_eq_getElem?, hseen.head, some.injEq, Prod.mk.injEq] at hnode
    obtain ⟨rfl, rfl⟩ := hnode
    exact ⟨p, hp, by simp [h0, h'.1 h0]⟩
  · obtain ⟨p', hp', htail⟩ := h'.2 (Nat.pos_of_ne_zero h0)
    exact ⟨p', hp', by simp [h0, htail]⟩

theorem plain_step (hseen : ph.Seen call w) (h : ph.Plain call w)
    (hg : Goes call finish f w ph w' ph') : (∃ r, ph' = .done r) ∨ ph'.Plain call w := by
  cases hg with
  | again => exact .inr trivial
  | begins =>
    exact .inr
      ⟨by simp [Current, Collect.start], by simp [Shallow, Collect.start, Collect.read]⟩
  | @reads n c c' hc =>
    refine .inr ⟨?_, h.2.step hseen.1 hseen.2 hc⟩
    rcases collect_step hc with ⟨lord, p, tasks, hpar, hp, ho, rfl⟩ | rfl |
      ⟨t, token, p, pie, tasks, hpar, hnode, hp, hl, ho, rfl⟩
    · exact current_observe h.1 hp ho
    · exact h.1
    · exact current_observe h.1 hp ho
  | @finishes n c hf =>
    refine .inr ⟨h.1, fun hrec => ⟨fun h0 => by simp [eq_nil_of_length_eq_zero h0], fun h0 => ?_⟩⟩
    simp only [Collect.finished, and_eq_true, isNone_iff_eq_none,
      decide_eq_true_eq] at hf
    have hread : c.read = c.cursor := if_neg (by rw [hf.1]; simp)
    exact (h.2 hrec).2 (hread ▸ h0.trans_le hf.2)
  | observes ho =>
    refine .inr ⟨fun x hx p hp => ?_, h.2⟩
    rcases (observeCaller_spec ho).2 x (mem_sortTasks.1 hx) with hx | ⟨p', hp', he⟩
    · exact h.1 x hx p hp
    · rw [he, some.inj (hp.symm.trans hp')]
  | busy hb => exact .inr trivial
  | _ => exact .inl ⟨_, rfl⟩

/-- A walk that runs alone ends without a change, or in its last section with what it collected in
the world it started in. -/
theorem alone_run {n : Nat} (hi : Inv w) (hfin : Keeps finish)
    (h : Relation.ReflTransGen (Turn call finish fun _ _ => False) (w, .locate n) a) :
    (a.1 = w ∧ ((∃ r, a.2 = .done r) ∨ a.2.Seen call w ∧ a.2.Plain call w)) ∨
      ∃ r f tasks nodes, a.2 = .done r ∧ Seen call w tasks nodes nodes.length ∧
        Current w tasks ∧ Shallow call w nodes nodes.length ∧
        finish f w tasks nodes = some (.ok r, a.1) := by
  induction h with
  | refl => exact .inl ⟨rfl, .inr ⟨trivial, trivial⟩⟩
  | @tail a b _ hab ih =>
    cases hab with
    | other ho => exact ho.elim
    | @own v v' ph ph' f hs =>
      rcases ih with ⟨rfl, hph⟩ | ⟨r, f', tasks, nodes, hr, hrest⟩
      · have hg := goes_of_step hs
        rcases hph with ⟨r, hr⟩ | ⟨hseen, hplain⟩
        · rw [show ph = .done r from hr] at hs
          cases hs
          exact .inl ⟨rfl, .inl ⟨r, rfl⟩⟩
        rcases seen_step hi hfin hseen hg with ⟨r, rfl⟩ | ⟨rfl, hseen'⟩
        · cases hg with
          | stops hf =>
            exact .inl ⟨(hfin _ _ _ _ _ _ hf).resolve_left (by simp), .inl ⟨_, rfl⟩⟩
          | commits hf => exact .inr ⟨_, f, _, _, rfl, hseen, hplain.1, hplain.2, hf⟩
          | _ => exact .inl ⟨rfl, .inl ⟨_, rfl⟩⟩
        · rcases plain_step hseen hplain hg with hd | hplain'
          · exact .inl ⟨rfl, .inl hd⟩
          · exact .inl ⟨rfl, .inr ⟨hseen', hplain'⟩⟩
      · rw [show ph = .done r from hr] at hs
        cases hs
        exact .inr ⟨r, f', tasks, nodes, rfl, hrest⟩

end

end Sqware.Ledger
