import Sqware.Nest.Table

/-!
# What the page tables translate

`look` is the meaning of a tree of tables: the leaf over a page, if there is one.  A well-formed
tree has a child table exactly under its branches.  Every operation is described by what it does to
`look`; the preparations do not change a translation, whether they succeed or not.
-/

namespace Sqware.Nest

open Radix List Option

/-- A leaf as a page under it sees it. -/
structure Leaf where
  level : Nat
  ppn : Nat
  flags : PteFlags
  deriving DecidableEq, Repr

namespace TableNode

theorem span_pos (l : Nat) : 0 < span l := Nat.pow_pos (by decide)

theorem span_succ (l : Nat) : span (l + 1) = span l * 512 := pow_succ 512 l

@[simp] theorem span_zero : span 0 = 1 := rfl

variable {k : Nat}

theorem span_dvd {l : Nat} (h : k ≤ l) : span k ∣ span l := Nat.pow_dvd_pow 512 h

/-! ## Meaning and well-formedness -/

/-- The leaf that translates a page. -/
def look : (level : Nat) → TableNode → Nat → Option Leaf
  | level, node, p =>
    let slot := digit 512 level p
    let entry := node.entries slot
    if !entry.isValid then none
    else if entry.isLeaf then some ⟨level, entry.ppn + p % span level, entry.flags⟩
    else match level with
      | 0 => none
      | l + 1 => (node.child slot).bind fun c => look l c p

/-- The entry at level `t` over a page, where branches lead to it. -/
def slotAt (t p : Nat) : (level : Nat) → TableNode → Option Entry
  | level, node =>
    let slot := digit 512 level p
    let entry := node.entries slot
    if level = t then some entry
    else if !entry.isBranch then none
    else match level with
      | 0 => none
      | l + 1 => (node.child slot).bind fun c => slotAt t p l c

/-- Children are under branches and the other way round, leaves are aligned. -/
def WF : (level : Nat) → TableNode → Prop
  | level, node =>
    (node.children.map Prod.fst).Nodup ∧
    (∀ i, (node.entries i).isBranch = (node.child i).isSome) ∧
    (∀ i, (node.entries i).isValid = true → (node.entries i).isLeaf = true →
      span level ∣ (node.entries i).ppn) ∧
    match level with
    | 0 => node.children = []
    | l + 1 => ∀ i c, node.child i = some c → WF l c

section
variable {l : Nat} {n : TableNode}

theorem WF.nodup (h : WF l n) : (n.children.map Prod.fst).Nodup := by
  cases l <;> exact h.1

theorem WF.branch (h : WF l n) (i : Nat) : (n.entries i).isBranch = (n.child i).isSome := by
  cases l <;> exact h.2.1 i

variable {i : Nat}

theorem WF.aligned (h : WF l n) (hv : (n.entries i).isValid = true)
    (hl : (n.entries i).isLeaf = true) : span l ∣ (n.entries i).ppn := by
  cases l <;> exact h.2.2.1 i hv hl

theorem WF.child (h : WF (l + 1) n) {c : TableNode} (hc : n.child i = some c) : WF l c :=
  h.2.2.2 i c hc

theorem WF.childless (h : WF 0 n) : n.children = [] := h.2.2.2

theorem wf_zero (h : n.children = []) (hb : ∀ i, (n.entries i).isBranch = false) : WF 0 n := by
  refine ⟨by simp [h], fun i => ?_, fun i _ _ => Nat.one_dvd _, h⟩
  simp [hb, child, h, Keyed.get]

theorem wf_succ (hn : (n.children.map Prod.fst).Nodup)
    (hb : ∀ i, (n.entries i).isBranch = (n.child i).isSome)
    (ha : ∀ i, (n.entries i).isValid = true → (n.entries i).isLeaf = true →
      span (l + 1) ∣ (n.entries i).ppn)
    (hc : ∀ i c, n.child i = some c → WF l c) : WF (l + 1) n :=
  ⟨hn, hb, ha, hc⟩

theorem WF.exists_child (h : WF (l + 1) n) (hb : (n.entries i).isBranch = true) :
    ∃ c, n.child i = some c ∧ WF l c := by
  rw [h.branch, isSome_iff_exists] at hb
  obtain ⟨c, hc⟩ := hb
  exact ⟨c, hc, h.child hc⟩

theorem WF.isBranch (h : WF l n) {c : TableNode} (hc : n.child i = some c) :
    (n.entries i).isBranch = true := by
  rw [h.branch, hc]
  rfl

theorem WF.child_none (h : WF l n) (hb : (n.entries i).isBranch = false) : n.child i = none := by
  rw [h.branch] at hb
  simpa using hb

theorem WF.not_branch_zero (h : WF 0 n) (i : Nat) : (n.entries i).isBranch = false := by
  rw [h.branch, TableNode.child, h.childless]
  rfl

end

/-! ### Entries -/

variable {e : Entry}

theorem isBranch_eq : e.isBranch = (e.isValid && !e.isLeaf) := rfl

@[simp] theorem isValid_cleared : Entry.isValid {} = false := by decide

@[simp] theorem isBranch_cleared : Entry.isBranch {} = false := by decide

theorem isBranch_of_not_leaf (hv : e.isValid = true) (hl : e.isLeaf = false) :
    e.isBranch = true := by
  simp [isBranch_eq, hv, hl]

theorem not_branch_of_invalid (h : e.isValid = false) : e.isBranch = false := by
  simp [isBranch_eq, h]

theorem not_branch_of_leaf (h : e.isLeaf = true) : e.isBranch = false := by
  simp [isBranch_eq, h]

/-! ### One level of a walk -/

section
variable {l : Nat} {n : TableNode} {p : Nat}

theorem look_invalid (h : (n.entries (digit 512 l p)).isValid = false) : look l n p = none := by
  cases l <;> exact if_pos (by rw [h]; rfl)

theorem look_leaf (hv : (n.entries (digit 512 l p)).isValid = true)
    (hl : (n.entries (digit 512 l p)).isLeaf = true) :
    look l n p = some ⟨l, (n.entries (digit 512 l p)).ppn + p % span l,
      (n.entries (digit 512 l p)).flags⟩ := by
  cases l <;> exact (if_neg (by rw [hv]; nofun)).trans (if_pos hl)

theorem look_branch {c : TableNode} (hb : (n.entries (digit 512 (l + 1) p)).isBranch = true)
    (hc : n.child (digit 512 (l + 1) p) = some c) : look (l + 1) n p = look l c p := by
  rw [isBranch_eq, Bool.and_eq_true, Bool.not_eq_eq_eq_not, Bool.not_true] at hb
  rw [look]
  simp [hb.1, hb.2, hc]

theorem look_congr {n' : TableNode} (he : n'.entries (digit 512 l p) = n.entries (digit 512 l p))
    (hc : n'.child (digit 512 l p) = n.child (digit 512 l p)) : look l n' p = look l n p := by
  unfold look
  dsimp only
  rw [he, hc]

/-- The walk to a leaf: it is in the table, or below one of its branches. -/
theorem look_induct {motive : ∀ l n a, look l n p = some a → Prop}
    (leaf : ∀ l n (hv : (n.entries (digit 512 l p)).isValid = true)
      (hl : (n.entries (digit 512 l p)).isLeaf = true), motive l n _ (look_leaf hv hl))
    (branch : ∀ l n c a (hb : (n.entries (digit 512 (l + 1) p)).isBranch = true)
      (hc : n.child (digit 512 (l + 1) p) = some c) (h : look l c p = some a), motive l c a h →
      motive (l + 1) n a ((look_branch hb hc).trans h))
    (l : Nat) (n : TableNode) (a : Leaf) (h : look l n p = some a) : motive l n a h := by
  induction l generalizing n with
  | zero =>
    cases hv : (n.entries (digit 512 0 p)).isValid with
    | false => cases (look_invalid hv).symm.trans h
    | true =>
      cases hl : (n.entries (digit 512 0 p)).isLeaf with
      | false => simp [look, hv, hl] at h
      | true =>
        cases (look_leaf hv hl).symm.trans h
        exact leaf 0 n hv hl
  | succ l ih =>
    cases hv : (n.entries (digit 512 (l + 1) p)).isValid with
    | false => cases (look_invalid hv).symm.trans h
    | true =>
      cases hl : (n.entries (digit 512 (l + 1) p)).isLeaf with
      | false =>
        have hb := isBranch_of_not_leaf hv hl
        cases hc : n.child (digit 512 (l + 1) p) with
        | none => simp [look, hv, hl, hc] at h
        | some c => exact branch l n c a hb hc _ (ih c ((look_branch hb hc).symm.trans h))
      | true =>
        cases (look_leaf hv hl).symm.trans h
        exact leaf (l + 1) n hv hl

variable {t : Nat}

theorem slotAt_succ : slotAt t p (l + 1) n =
    if l + 1 = t then some (n.entries (digit 512 (l + 1) p))
    else if !(n.entries (digit 512 (l + 1) p)).isBranch then none
    else (n.child (digit 512 (l + 1) p)).bind (slotAt t p l) := rfl

theorem slotAt_self (t : Nat) : slotAt t p t n = some (n.entries (digit 512 t p)) := by
  cases t with
  | zero => rfl
  | succ t => rw [slotAt_succ, if_pos rfl]

theorem slotAt_branch {c : TableNode} (ht : t ≤ l)
    (hb : (n.entries (digit 512 (l + 1) p)).isBranch = true)
    (hc : n.child (digit 512 (l + 1) p) = some c) : slotAt t p (l + 1) n = slotAt t p l c := by
  rw [slotAt_succ]
  simp [hb, hc, show l + 1 ≠ t by omega]

theorem slotAt_not_branch (ht : l ≠ t) (hb : (n.entries (digit 512 l p)).isBranch = false) :
    slotAt t p l n = none := by
  cases l <;> exact (if_neg ht).trans (if_pos (by rw [hb]; rfl))

theorem slotAt_congr {n' : TableNode}
    (he : n'.entries (digit 512 l p) = n.entries (digit 512 l p))
    (hc : n'.child (digit 512 l p) = n.child (digit 512 l p)) :
    slotAt t p l n' = slotAt t p l n := by
  unfold slotAt
  dsimp only
  rw [he, hc]

theorem slotAt_le (h : slotAt t p l n = some e) : t ≤ l := by
  induction l generalizing n with
  | zero =>
    by_cases ht : 0 = t
    · exact ht ▸ le_rfl
    · unfold slotAt at h
      simp [ht] at h
  | succ l ih =>
    by_cases ht : l + 1 = t
    · exact ht ▸ le_rfl
    rw [slotAt_succ, if_neg ht] at h
    split at h
    · simp at h
    · obtain ⟨c, _, hc⟩ := bind_eq_some_iff.1 h
      exact (ih hc).trans (Nat.le_succ l)

theorem slotAt_above (h : l < t) : slotAt t p l n = none :=
  eq_none_iff_forall_ne_some.2 fun _ he => absurd (slotAt_le he) (Nat.not_le.2 h)

end

/-! ### Tables put in and changed -/

section
variable {l : Nat} {n : TableNode} {s : Nat}

@[simp] theorem entries_setEntry (e : Entry) (i : Nat) :
    (n.setEntry s e).entries i = if i = s then e else n.entries i := rfl

@[simp] theorem child_setEntry (e : Entry) (i : Nat) : (n.setEntry s e).child i = n.child i := rfl

@[simp] theorem entries_setChild (c : TableNode) : (n.setChild s c).entries = n.entries := rfl

/-- Only what is under a slot may have changed. -/
structure Alters (s : Nat) (n n' : TableNode) : Prop where
  nodup : (n'.children.map Prod.fst).Nodup
  entry : ∀ i, i ≠ s → n'.entries i = n.entries i
  other : ∀ i, i ≠ s → n'.child i = n.child i

theorem Alters.wf {n' : TableNode} (h : Alters s n n') (hw : WF (l + 1) n)
    (hb : (n'.entries s).isBranch = (n'.child s).isSome)
    (ha : (n'.entries s).isValid = true → (n'.entries s).isLeaf = true →
      span (l + 1) ∣ (n'.entries s).ppn)
    (hc : ∀ c, n'.child s = some c → WF l c) : WF (l + 1) n' := by
  refine wf_succ h.nodup (fun i => ?_) (fun i => ?_) fun i c hi => ?_ <;> by_cases hs : i = s
  · rwa [hs]
  · rw [h.entry i hs, h.other i hs, hw.branch]
  · rwa [hs]
  · rw [h.entry i hs]
    exact hw.aligned
  · exact hc c (hs ▸ hi)
  · exact hw.child (h.other i hs ▸ hi)

/-- Under the slot hangs this table. -/
structure Hangs (s : Nat) (c n n' : TableNode) : Prop extends Alters s n n' where
  branch : (n'.entries s).isBranch = true
  child : n'.child s = some c

variable {c c' n' : TableNode} {p : Nat}

theorem Hangs.wf (h : Hangs s c n n') (hw : WF (l + 1) n) (hc : WF l c) : WF (l + 1) n' := by
  refine h.toAlters.wf hw (by rw [h.branch, h.child]; rfl) (fun _ hl => ?_) fun d hd => ?_
  · have hb := h.branch
    rw [not_branch_of_leaf hl] at hb
    cases hb
  · exact some.inj (h.child.symm.trans hd) ▸ hc

theorem Hangs.look_eq (h : Hangs s c n n') (p : Nat) : look (l + 1) n' p =
    if digit 512 (l + 1) p = s then look l c p else look (l + 1) n p := by
  split
  · next hs => exact look_branch (hs ▸ h.branch) (hs ▸ h.child)
  · next hs => exact look_congr (h.entry _ hs) (h.other _ hs)

theorem Hangs.slotAt_eq {t : Nat} (h : Hangs s c n n') (ht : t ≤ l) (p : Nat) :
    slotAt t p (l + 1) n' =
      if digit 512 (l + 1) p = s then slotAt t p l c else slotAt t p (l + 1) n := by
  split
  · next hs => exact slotAt_branch ht (hs ▸ h.branch) (hs ▸ h.child)
  · next hs => exact slotAt_congr (h.entry _ hs) (h.other _ hs)

theorem child_setChild (hc : n.child s = some c) (i : Nat) :
    (n.setChild s c').child i = if i = s then some c' else n.child i := by
  obtain ⟨x, hx, _⟩ := map_eq_some_iff.1 hc
  change (Keyed.get Prod.fst (Keyed.update Prod.fst s (fun x => (x.1, c')) n.children) i).map _ = _
  rw [@Keyed.get_update _ _ _ Prod.fst n.children s (fun x => (x.1, c')) (fun _ h => h)]
  split
  · rw [hx]
    rfl
  · rfl

theorem keys_setChild (c : TableNode) :
    (n.setChild s c).children.map Prod.fst = n.children.map Prod.fst :=
  @Keyed.map_update _ _ _ Prod.fst n.children s (fun x => (x.1, c)) (fun _ h => h)

theorem hangs_setChild (h : WF l n) (hc : n.child s = some c) :
    Hangs s c' n (n.setChild s c') where
  nodup := (keys_setChild c').symm ▸ h.nodup
  entry _ _ := rfl
  other i hi := by rw [child_setChild hc, if_neg hi]
  branch := h.isBranch hc
  child := by rw [child_setChild hc, if_pos rfl]

/-- What `grow` makes of a table, where it has the room. -/
def grown (n : TableNode) (s : Nat) (c : TableNode) : TableNode :=
  mk (n.setEntry s .branch).entries (n.children ++ [(s, c)])

theorem grow_ok {room room' : Nat} (h : n.grow s c room = (.ok n', room')) : n' = n.grown s c := by
  match room with
  | 0 => cases h
  | 1 => cases h
  | room + 2 =>
    cases h
    rfl

theorem hangs_grown (h : WF l n) (hs : n.child s = none) : Hangs s c n (n.grown s c) := by
  have hfresh : Keyed.get Prod.fst n.children s = none := map_eq_none_iff.1 hs
  have hchild : ∀ i, (n.grown s c).child i = if i = s then some c else n.child i := by
    intro i
    change (Keyed.get Prod.fst (n.children ++ [(s, c)]) i).map _ = _
    rw [@Keyed.get_append_fresh _ _ _ _ _ (s, c) hfresh]
    split <;> rfl
  refine ⟨⟨Keyed.nodup_append h.nodup hfresh, fun i hi => if_neg hi, fun i hi => ?_⟩, ?_, ?_⟩
  · rw [hchild, if_neg hi]
  · exact congrArg Entry.isBranch (if_pos rfl)
  · rw [hchild, if_pos rfl]

end

/-! ## Making tables -/

/-- An entry stays where it is, and one that became valid is fresh. -/
structure Stays (fresh : Prop) (a b : Option Entry) : Prop where
  isSome : a.isSome → b.isSome
  new : ∀ e, b = some e → e.isValid = true → a = some e ∨ fresh

theorem Stays.refl {fresh : Prop} (a : Option Entry) : Stays fresh a a :=
  ⟨id, fun _ h _ => .inl h⟩

/-- Tables were added: translations are as they were, and entries stay. -/
structure Extends (l : Nat) (fresh : Nat → Nat → Prop) (n n' : TableNode) : Prop where
  wf : WF l n'
  look : ∀ q, look l n' q = look l n q
  stays : ∀ k q, Stays (fresh k q) (slotAt k q l n) (slotAt k q l n')

section
variable {l : Nat} {fresh : Nat → Nat → Prop} {n n1 n2 : TableNode}

theorem Extends.refl (h : WF l n) : Extends l fresh n n :=
  ⟨h, fun _ => rfl, fun _ _ => .refl _⟩

theorem Extends.trans (h : Extends l fresh n n1) (h' : Extends l fresh n1 n2) :
    Extends l fresh n n2 := by
  refine ⟨h'.wf, fun q => (h'.look q).trans (h.look q), fun k q => ?_⟩
  have h1 := h.stays k q
  have h2 := h'.stays k q
  refine ⟨fun hs => h2.isSome (h1.isSome hs), fun e he hv => ?_⟩
  exact (h2.new e he hv).elim (h1.new e · hv) .inr

theorem Extends.mono {f : Nat → Nat → Prop} (h : Extends l fresh n n1)
    (hf : ∀ k q, fresh k q → f k q) : Extends l f n n1 :=
  { h with stays := fun k q =>
    { h.stays k q with new := fun e he hv => ((h.stays k q).new e he hv).imp_right (hf k q) } }

/-- What only valid entries have, an entry that is not fresh lacks still. -/
theorem Extends.lacks (h : Extends l fresh n n1) {f : Entry → Bool}
    (hf : ∀ e, f e = true → e.isValid = true) {q : Nat} (hq : ¬ fresh k q)
    (hn : ∀ e, slotAt k q l n = some e → f e = false) :
    ∀ e, slotAt k q l n1 = some e → f e = false := by
  intro e he
  by_contra hv
  rw [Bool.not_eq_false] at hv
  rcases (h.stays k q).new e he (hf e hv) with he | hq'
  · cases (hn e he).symm.trans hv
  · exact hq hq'

theorem Hangs.extends {s : Nat} {c' : TableNode} (hg : Hangs s c' n n1) (h : WF (l + 1) n)
    (hw : WF l c')
    (hlook : ∀ q, digit 512 (l + 1) q = s → look l c' q = look (l + 1) n q)
    (hbelow : ∀ k q, k ≤ l → digit 512 (l + 1) q = s →
      Stays (fresh k q) (slotAt k q (l + 1) n) (slotAt k q l c'))
    (hhere : ∀ q, digit 512 (l + 1) q = s →
      Stays (fresh (l + 1) q) (some (n.entries s)) (some (n1.entries s))) :
    Extends (l + 1) fresh n n1 := by
  refine ⟨hg.wf h hw, fun q => ?_, fun k q => ?_⟩
  · rw [hg.look_eq]
    split
    · next hd => exact hlook q hd
    · rfl
  -- above the child an entry is the table's own, below it the child's
  rcases Nat.lt_trichotomy k (l + 1) with hk | rfl | hk
  · rw [hg.slotAt_eq (by omega)]
    split
    · next hd => exact hbelow k q (by omega) hd
    · exact .refl _
  · rw [slotAt_self, slotAt_self]
    by_cases hd : digit 512 (l + 1) q = s
    · rw [hd]
      exact hhere q hd
    · rw [hg.entry _ hd]
      exact .refl _
  · rw [slotAt_above hk, slotAt_above hk]
    exact .refl _

theorem Extends.setChild {s : Nat} {c c' : TableNode} {t v : Nat} (h : WF (l + 1) n)
    (hc : n.child s = some c) (hs : digit 512 (l + 1) v = s)
    (he : Extends l (fun k q => t < k ∧ Agree 512 l k q v) c c') :
    Extends (l + 1) (fun k q => t < k ∧ Agree 512 (l + 1) k q v) n (n.setChild s c') := by
  refine (hangs_setChild h hc).extends h he.wf (fun q hd => ?_) (fun k q hk hd => ?_)
    fun _ _ => .refl _
  · rw [he.look, look_branch (hd ▸ h.isBranch hc) (hd ▸ hc)]
  · rw [slotAt_branch hk (hd ▸ h.isBranch hc) (hd ▸ hc)]
    refine { he.stays k q with new := fun e hq hv => ((he.stays k q).new e hq hv).imp_right ?_ }
    exact fun ⟨ht, ha⟩ => ⟨ht, (agree_succ (by omega)).2 ⟨hd.trans hs.symm, ha⟩⟩

@[simp] theorem entries_leaf (i : Nat) : leaf.entries i = {} := rfl

@[simp] theorem child_leaf (i : Nat) : leaf.child i = none := rfl

theorem wf_leaf (l : Nat) : WF l leaf := by
  cases l with
  | zero => exact wf_zero rfl (by simp)
  | succ l => exact wf_succ nodup_nil (by simp) (by simp) (by simp)

theorem look_empty (q : Nat) : look l leaf q = none := look_invalid (by simp)

theorem slotAt_empty {q : Nat} (h : slotAt k q l leaf = some e) : e.isValid = false := by
  unfold slotAt at h
  split at h
  · cases h
    simp
  · simp at h

/-- A new empty table under a free entry. -/
theorem Extends.grown {s v : Nat} {t : Nat} (h : WF (l + 1) n) (ht : t ≤ l)
    (hs : digit 512 (l + 1) v = s) (hv : (n.entries s).isValid = false) :
    Extends (l + 1) (fun k q => t < k ∧ Agree 512 (l + 1) k q v) n (n.grown s leaf) := by
  have hc : n.child s = none := h.child_none (not_branch_of_invalid hv)
  refine (hangs_grown h hc).extends h (wf_leaf l) (fun q hd => ?_) (fun k q hk hd => ?_)
    fun q hd => ?_
  · rw [look_empty, look_invalid (hd ▸ hv)]
  · rw [slotAt_not_branch (by omega) (hd ▸ not_branch_of_invalid hv)]
    refine ⟨nofun, fun e he hv' => ?_⟩
    rw [slotAt_empty he] at hv'
    cases hv'
  · exact ⟨fun _ => rfl, fun _ _ _ => .inr ⟨by omega, agree_self.2 (hd.trans hs.symm)⟩⟩

end

variable {l room' : Nat} {n n' : TableNode}

/-- Making tables: every translation stays. -/
theorem entryAt_extends {t v : Nat} (ht : t ≤ l) (h : WF l n) (room : Nat)
    {answer : Except NestError Entry} (hr : entryAt t v l n room = (answer, n', room')) :
    Extends l (fun k q => t < k ∧ Agree 512 l k q v) n n' ∧
      ∀ e, answer = .ok e → slotAt t v l n' = some e := by
  induction l generalizing n room answer n' room' with
  | zero =>
    obtain rfl := Nat.le_zero.1 ht
    unfold entryAt at hr
    simp only [if_pos] at hr
    cases hr
    exact ⟨.refl h, fun e he => by rw [slotAt_self, Except.ok.inj he]⟩
  | succ l ih =>
    rw [entryAt] at hr
    by_cases heq : l + 1 = t
    · subst heq
      simp only [if_pos] at hr
      cases hr
      exact ⟨.refl h, fun e he => by rw [slotAt_self, Except.ok.inj he]⟩
    simp only [if_neg heq] at hr
    split at hr
    · cases hr
      exact ⟨.refl h, by simp⟩
    next hleaf =>
    split at hr
    · next e room1 hg =>
      cases hr
      exact ⟨.refl h, by simp⟩
    next n1 room1 hg =>
    -- the table below, new where the entry is free
    have hext : Extends (l + 1) (fun k q => t < k ∧ Agree 512 (l + 1) k q v) n n1 := by
      split at hg
      · cases hg
        exact .refl h
      next hv =>
      rw [grow_ok hg]
      exact Extends.grown h (by omega) rfl (by simpa using hv)
    have hw := hext.wf
    split at hr
    · cases hr
      exact ⟨hext, by simp⟩
    next c hc =>
    rcases hsub : entryAt t v l c room1 with ⟨a, c', r⟩
    rw [hsub] at hr
    cases hr
    obtain ⟨hsubx, hslot⟩ := ih (by omega) (hw.child hc) room1 hsub
    refine ⟨hext.trans (hsubx.setChild hw hc rfl), fun e he => ?_⟩
    rw [(hangs_setChild hw hc).slotAt_eq (by omega), if_pos rfl]
    exact hslot e he

/-! ## An entry written at the end of a path -/

/-- A leaf written over an entry that was not a branch. -/
structure Writes (l t v : Nat) (e : Entry) (n n' : TableNode) : Prop where
  wf : WF l n'
  inside : ∀ q, Agree 512 l t q v → look l n' q = some ⟨t, e.ppn + q % span t, e.flags⟩
  outside : ∀ q, ¬ Agree 512 l t q v → look l n' q = look l n q
  slot : ∀ k q, ¬ Agree 512 l (max k t) q v → slotAt k q l n' = slotAt k q l n

theorem wf_setEntry {s : Nat} (h : WF l n) (hb : (n.entries s).isBranch = false)
    (he : e.isBranch = false) (ha : e.isValid = true → e.isLeaf = true → span l ∣ e.ppn) :
    WF l (n.setEntry s e) := by
  have hbranch : ∀ i, ((n.setEntry s e).entries i).isBranch =
      ((n.setEntry s e).child i).isSome := by
    intro i
    rw [entries_setEntry, child_setEntry]
    split
    · next hi => rw [hi, h.child_none hb, he]; rfl
    · exact h.branch i
  cases l with
  | zero =>
    refine wf_zero h.childless fun i => ?_
    rw [hbranch, child_setEntry, ← h.branch, h.not_branch_zero]
  | succ l =>
    have halt : Alters s n (n.setEntry s e) := ⟨h.nodup, fun _ hi => if_neg hi, fun _ _ => rfl⟩
    refine halt.wf h (hbranch s) ?_ fun c hc => h.child hc
    rwa [entries_setEntry, if_pos rfl]

theorem writes_setEntry {v : Nat} (h : WF l n)
    (hb : (n.entries (digit 512 l v)).isBranch = false) (hv : e.isValid = true)
    (hl : e.isLeaf = true) (ha : span l ∣ e.ppn) :
    Writes l l v e n (n.setEntry (digit 512 l v) e) := by
  have hwf := wf_setEntry h hb (not_branch_of_leaf hl) fun _ _ => ha
  refine ⟨hwf, fun q hq => ?_, fun q hq => ?_, fun k q hq => ?_⟩
  · rw [agree_self] at hq
    have he : (n.setEntry (digit 512 l v) e).entries (digit 512 l q) = e := by
      rw [entries_setEntry, if_pos hq]
    rw [look_leaf (he.symm ▸ hv) (he.symm ▸ hl), he]
  · rw [agree_self] at hq
    exact look_congr (if_neg hq) rfl
  rcases Nat.lt_or_ge l k with hk | hk
  · rw [slotAt_above hk, slotAt_above hk]
  · rw [max_eq_right hk, agree_self] at hq
    exact slotAt_congr (if_neg hq) rfl

theorem Writes.setChild {t v : Nat} {c c' : TableNode} (h : WF (l + 1) n) (ht : t ≤ l)
    (hc : n.child (digit 512 (l + 1) v) = some c) (hw : Writes l t v e c c') :
    Writes (l + 1) t v e n (n.setChild (digit 512 (l + 1) v) c') := by
  have hg : Hangs _ c' n _ := hangs_setChild h hc
  refine ⟨hg.wf h hw.wf, fun q hq => ?_, fun q hq => ?_, fun k q hq => ?_⟩
  · rw [agree_succ (by omega)] at hq
    rw [hg.look_eq, if_pos hq.1, hw.inside q hq.2]
  · rw [agree_succ (by omega), not_and] at hq
    rw [hg.look_eq]
    split
    · next hd => rw [hw.outside q (hq hd), look_branch (hd ▸ h.isBranch hc) (hd ▸ hc)]
    · rfl
  rcases Nat.lt_trichotomy k (l + 1) with hk | rfl | hk
  · rw [hg.slotAt_eq (by omega)]
    split
    · next hd =>
      rw [agree_succ (by omega), not_and] at hq
      rw [hw.slot k q (hq hd), slotAt_branch (by omega) (hd ▸ h.isBranch hc) (hd ▸ hc)]
    · rfl
  · rw [slotAt_self, slotAt_self, entries_setChild]
  · rw [slotAt_above hk, slotAt_above hk]

/-- An entry written at the end of a path. -/
theorem modifyAt_spec {t v : Nat} {f : Entry → Entry} (h : WF l n)
    (hs : slotAt t v l n = some e) (hb : e.isBranch = false) (hv : (f e).isValid = true)
    (hl : (f e).isLeaf = true) (ha : span t ∣ (f e).ppn) :
    ∃ n', modifyAt t v f l n = some n' ∧ Writes l t v (f e) n n' := by
  have ht := slotAt_le hs
  induction l generalizing n with
  | zero =>
    obtain rfl := Nat.le_zero.1 ht
    cases hs
    exact ⟨_, by unfold modifyAt; simp only [if_pos], writes_setEntry h hb hv hl ha⟩
  | succ l ih =>
    by_cases heq : l + 1 = t
    · subst heq
      rw [slotAt_self] at hs
      cases hs
      exact ⟨_, by rw [modifyAt]; simp only [if_pos], writes_setEntry h hb hv hl ha⟩
    cases hbr : (n.entries (digit 512 (l + 1) v)).isBranch with
    | false =>
      rw [slotAt_not_branch (by omega) hbr] at hs
      simp at hs
    | true =>
      obtain ⟨c, hc, _⟩ := h.exists_child hbr
      rw [slotAt_branch (by omega) hbr hc] at hs
      obtain ⟨c', hm, hw⟩ := ih (h.child hc) hs (by omega)
      rw [isBranch_eq, Bool.and_eq_true, Bool.not_eq_eq_eq_not, Bool.not_true] at hbr
      refine ⟨_, ?_, hw.setChild h (by omega) hc⟩
      rw [modifyAt]
      simp [heq, hbr.1, hbr.2, hc, hm]

/-! ## Chunks -/

theorem chunkLevel_le (v pa size m : Nat) : chunkLevel v pa size m ≤ m := by
  induction m with
  | zero => exact le_rfl
  | succ m ih =>
    unfold chunkLevel
    split
    · exact ih.trans (Nat.le_succ m)
    · exact le_rfl

variable {size : Nat}

theorem chunkLevel_spec (v pa : Nat) (hs : 0 < size) (m : Nat) :
    span (chunkLevel v pa size m) ≤ size ∧ span (chunkLevel v pa size m) ∣ v ∧
      span (chunkLevel v pa size m) ∣ pa := by
  induction m with
  | zero => exact ⟨hs, Nat.one_dvd _, Nat.one_dvd _⟩
  | succ m ih =>
    unfold chunkLevel
    split
    · exact ih
    · next hn =>
      simp only [not_or, not_not, Nat.not_lt] at hn
      exact ⟨hn.1, Nat.dvd_of_mod_eq_zero hn.2.1, Nat.dvd_of_mod_eq_zero hn.2.2⟩

/-- The pages of a chunk. -/
def Chunk.Has (c : Chunk) (q : Nat) : Prop := c.va ≤ q ∧ q < c.va + span c.level

variable {pa top : Nat} {c : Chunk}

theorem mem_chunks (n : Nat) {v : Nat} (h : c ∈ chunks top n v pa size) :
    c.level ≤ maxLevel top ∧ span c.level ∣ c.va ∧ span c.level ∣ c.pa ∧ v ≤ c.va ∧
      c.va + span c.level ≤ v + size ∧ c.pa + v = pa + c.va := by
  induction n generalizing v pa size with
  | zero => simp [chunks] at h
  | succ n ih =>
    unfold chunks at h
    split at h
    · simp at h
    next hs =>
    obtain ⟨hle, hv, hp⟩ := chunkLevel_spec v pa (Nat.pos_of_ne_zero hs) (maxLevel top)
    rcases mem_cons.1 h with rfl | h
    · exact ⟨chunkLevel_le _ _ _ _, hv, hp, le_rfl, by dsimp only; omega, rfl⟩
    · obtain ⟨h1, h2, h3, h4, h5, h6⟩ := ih h
      exact ⟨h1, h2, h3, by omega, by omega, by omega⟩

theorem pairwise_chunks (top n v pa size : Nat) :
    (chunks top n v pa size).Pairwise fun a b => a.va + span a.level ≤ b.va := by
  induction n generalizing v pa size with
  | zero => exact List.Pairwise.nil
  | succ n ih =>
    unfold chunks
    split
    · exact List.Pairwise.nil
    · exact pairwise_cons.2 ⟨fun c hc => (mem_chunks n hc).2.2.2.1, ih _ _ _⟩

theorem exists_chunk (top pa : Nat) {n v q : Nat} (hn : size ≤ n)
    (hq : v ≤ q) (hq' : q < v + size) :
    ∃ c ∈ chunks top n v pa size, c.Has q := by
  induction n generalizing v pa size with
  | zero => omega
  | succ n ih =>
    unfold chunks
    rw [if_neg (by omega)]
    have hpos := span_pos (chunkLevel v pa size (maxLevel top))
    rcases Nat.lt_or_ge q (v + span (chunkLevel v pa size (maxLevel top))) with hlt | hge
    · exact ⟨_, mem_cons_self, hq, hlt⟩
    · obtain ⟨c, hc, hh⟩ := ih (pa + span (chunkLevel v pa size (maxLevel top)))
        (show size - span (chunkLevel v pa size (maxLevel top)) ≤ n by omega) hge (by omega)
      exact ⟨c, mem_cons_of_mem _ hc, hh⟩

theorem agree_iff_has {q : Nat} (ht : c.level ≤ l) (ha : span c.level ∣ c.va)
    (hc : c.va < span (l + 1)) (hq : q < span (l + 1)) :
    Agree 512 l c.level q c.va ↔ c.Has q := by
  rw [agree_iff hq hc ht, same_block_iff (by decide) ha]
  rfl

/-- Blocks of two levels meet only if the smaller is in the greater. -/
theorem not_agree_of_apart {t q v : Nat} (hq : q < span (l + 1)) (hv : v < span (l + 1))
    (hk : k ≤ l) (ht : t ≤ l) (haq : span k ∣ q) (hav : span t ∣ v)
    (h : q + span k ≤ v ∨ v + span t ≤ q) : ¬ Agree 512 l (max k t) q v := by
  intro ha
  have hpk := span_pos k
  have hpt := span_pos t
  rcases Nat.le_total k t with hkt | hkt
  · rw [max_eq_right hkt, agree_iff hq hv ht, same_block_iff (by decide) hav] at ha
    change v ≤ q ∧ q < v + span t at ha
    omega
  rw [max_eq_left hkt] at ha
  have ha := ha.symm
  rw [agree_iff hv hq hk, same_block_iff (by decide) haq] at ha
  change q ≤ v ∧ v < q + span k at ha
  omega

/-- A chunk that can be written: its path is there, and its entry is free. -/
def Ready (l : Nat) (n : TableNode) (c : Chunk) : Prop :=
  ∃ e, slotAt c.level c.va l n = some e ∧ e.isValid = false

/-- Well-placed chunks of a table of level `l`. -/
structure Placed (l : Nat) (c : Chunk) : Prop where
  level : c.level ≤ l
  va : span c.level ∣ c.va
  pa : span c.level ∣ c.pa
  fits : c.va + span c.level ≤ span (l + 1)

theorem Placed.lt (h : Placed l c) : c.va < span (l + 1) := by
  have := span_pos c.level
  have := h.fits
  omega

/-- Chunks apart from each other were mapped. -/
structure Maps (l : Nat) (flags : PteFlags) (cs : List Chunk) (n n' : TableNode) : Prop where
  wf : WF l n'
  inside : ∀ c ∈ cs, ∀ q, c.Has q → look l n' q = some ⟨c.level, c.pa + (q - c.va), flags⟩
  outside : ∀ q, q < span (l + 1) → (∀ c ∈ cs, ¬ c.Has q) → look l n' q = look l n q
  ready : ∀ d, Placed l d → (∀ c ∈ cs, c.va + span c.level ≤ d.va ∨ d.va + span d.level ≤ c.va) →
    Ready l n d → Ready l n' d

theorem or_V_of_contains {f : PteFlags} (h : PteFlags.contains f .V = true) : f ||| .V = f := by
  have h' : f &&& .V = .V := by simpa [PteFlags.contains] using h
  rw [← h', BitVec.or_comm]
  ext i hi
  rw [BitVec.getElem_or, BitVec.getElem_and]
  cases f[i] <;> simp

/-- A list of free entries. -/
theorem mapChunks_spec {flags : PteFlags} {cs : List Chunk} (h : WF l n)
    (hv : PteFlags.contains flags .V = true) (hl : PteFlags.intersects flags .rwx = true)
    (hp : ∀ c ∈ cs, Placed l c) (ha : cs.Pairwise fun a b => a.va + span a.level ≤ b.va)
    (hr : ∀ c ∈ cs, Ready l n c) :
    ∃ n', mapChunks l flags cs n = some n' ∧ Maps l flags cs n n' := by
  induction cs generalizing n with
  | nil => exact ⟨n, rfl, h, by simp, fun _ _ _ => rfl, fun _ _ _ h => h⟩
  | cons c cs ih =>
    obtain ⟨hac, ha⟩ := pairwise_cons.1 ha
    have hpc := hp c mem_cons_self
    obtain ⟨e, he, hinv⟩ := hr c mem_cons_self
    obtain ⟨n1, hm, hw⟩ := modifyAt_spec (f := fun _ => { ppn := c.pa, flags := flags ||| .V }) h he
      (not_branch_of_invalid hinv) (by rw [or_V_of_contains hv]; exact hv)
      (by rw [or_V_of_contains hv]; exact hl) hpc.pa
    rw [or_V_of_contains hv] at hw
    -- an entry apart from the chunk is as ready as it was
    have hready : ∀ d, Placed l d → (c.va + span c.level ≤ d.va ∨ d.va + span d.level ≤ c.va) →
        Ready l n d → Ready l n1 d := by
      rintro d hd hap ⟨e, he, hinv⟩
      refine ⟨e, ?_, hinv⟩
      rw [hw.slot d.level d.va, he]
      exact not_agree_of_apart hd.lt hpc.lt hd.level hpc.level hd.va hpc.va hap.symm
    obtain ⟨n2, hm2, hmap⟩ := ih hw.wf (fun d hd => hp d (mem_cons_of_mem _ hd)) ha
      fun d hd => hready d (hp d (mem_cons_of_mem _ hd)) (.inl (hac d hd))
        (hr d (mem_cons_of_mem _ hd))
    refine ⟨n2, by simp only [mapChunks, hm, hm2], hmap.wf, fun d hd q hq => ?_, fun q hq hn => ?_,
      fun d hd hap hrd => ?_⟩
    · rcases mem_cons.1 hd with rfl | hd
      · have hlt : q < span (l + 1) := hq.2.trans_le hpc.fits
        rw [hmap.outside q hlt, hw.inside q ((agree_iff_has hpc.level hpc.va hpc.lt hlt).2 hq)]
        · have hmod : q % span d.level = q - d.va := by
            obtain ⟨m, hm⟩ := hpc.va
            have hq' := hq
            unfold Chunk.Has at hq'
            rw [hm] at hq' ⊢
            obtain ⟨r, rfl⟩ := Nat.exists_eq_add_of_le hq'.1
            rw [Nat.mul_add_mod, Nat.mod_eq_of_lt (by omega), Nat.add_sub_cancel_left]
          rw [hmod]
        intro d' hd' hq'
        have := hac d' hd'
        unfold Chunk.Has at hq hq'
        omega
      · exact hmap.inside d hd q hq
    · have hc : ¬ Agree 512 l c.level q c.va :=
        fun hag => hn c mem_cons_self ((agree_iff_has hpc.level hpc.va hpc.lt hq).1 hag)
      rw [hmap.outside q hq fun d hd => hn d (mem_cons_of_mem _ hd), hw.outside q hc]
    · exact hmap.ready d hd (fun c' hc' => hap c' (mem_cons_of_mem _ hc'))
        (hready d hd (hap c mem_cons_self) hrd)

/-! ## Preparing a range -/

/-- No table hangs at the entry of a chunk. -/
def NoTable (l : Nat) (n : TableNode) (c : Chunk) : Prop :=
  ∀ e, slotAt c.level c.va l n = some e → e.isBranch = false

theorem Extends.noTable {fresh : Nat → Nat → Prop}
    (h : Extends l fresh n n') (hf : ¬ fresh c.level c.va) (hn : NoTable l n c) :
    NoTable l n' c := by
  refine h.lacks (fun e hb => ?_) hf hn
  rw [isBranch_eq, Bool.and_eq_true] at hb
  exact hb.1

theorem Extends.ready {fresh : Nat → Nat → Prop}
    (h : Extends l fresh n n') (hf : ¬ fresh c.level c.va) (hr : Ready l n c) : Ready l n' c := by
  obtain ⟨e, he, hinv⟩ := hr
  obtain ⟨e', he'⟩ := isSome_iff_exists.1 ((h.stays _ _).isSome (isSome_of_eq_some he))
  refine ⟨e', he', h.lacks (fun _ hv => hv) hf (fun e'' he'' => ?_) e' he'⟩
  rw [he] at he''
  exact some.inj he'' ▸ hinv

theorem prepareChunk_spec {v : Nat} {t : Nat} (ht : t ≤ l) (h : WF l n)
    (room : Nat) {answer : Except NestError Nat}
    (hr : prepareChunk l v t n room = (answer, n', room')) :
    Extends l (fun k q => 0 < k ∧ Agree 512 l k q v) n n' ∧
      (∀ t', answer = .ok t' → t' ≤ t) ∧
      ∀ pa, NoTable l n ⟨t, v, pa⟩ → answer.isOk = true → answer = .ok t ∧
        Extends l (fun k q => t < k ∧ Agree 512 l k q v) n n' ∧ Ready l n' ⟨t, v, pa⟩ := by
  induction t using Nat.strong_induction_on generalizing n room with
  | _ t ih =>
  rcases he : entryAt t v l n room with ⟨a, n1, room1⟩
  obtain ⟨hext, hslot⟩ := entryAt_extends ht h room he
  have hext' := hext.mono (f := fun k q => 0 < k ∧ Agree 512 l k q v)
    fun k q hkq => ⟨by omega, hkq.2⟩
  unfold prepareChunk at hr
  rw [he] at hr
  cases a with
  | error f =>
    cases hr
    exact ⟨hext', by simp, by simp [Except.isOk, Except.toBool]⟩
  | ok e =>
    dsimp only at hr
    split at hr
    · next hv =>
      cases hr
      exact ⟨hext', by simp, fun pa _ _ => ⟨rfl, hext, e, hslot e rfl, by simpa using hv⟩⟩
    next hv =>
    cases t with
    | zero =>
      cases hr
      exact ⟨hext', by simp, by simp [Except.isOk, Except.toBool]⟩
    | succ t =>
      dsimp only at hr
      split at hr
      · cases hr
        exact ⟨hext', by simp, by simp [Except.isOk, Except.toBool]⟩
      next hl =>
      have hb := isBranch_of_not_leaf (by simpa using hv) (by simpa using hl)
      -- a table that hangs here was there before
      have hused : ∀ pa, ¬ NoTable l n ⟨t + 1, v, pa⟩ := by
        intro pa hn
        rw [hext.noTable (c := ⟨t + 1, v, pa⟩) (by simp) hn e (hslot e rfl)] at hb
        cases hb
      obtain ⟨hsub, hle, _⟩ := ih t (Nat.lt_succ_self t) (by omega) hext.wf room1 hr
      exact ⟨hext'.trans hsub, fun t' hok => (hle t' hok).trans (Nat.le_succ t),
        fun pa hn => absurd hn (hused pa)⟩

theorem maxLevel_le (l : Nat) : maxLevel l ≤ l := Nat.min_le_right 2 l

/-- Tables made for pages of a range. -/
def Within (l va size k q : Nat) : Prop :=
  0 < k ∧ ∃ p, va ≤ p ∧ p < va + size ∧ Agree 512 l k q p

theorem Placed.not_within {va : Nat} (hc : Placed l c)
    (hfit : va + size ≤ span (l + 1)) (h : c.va + span c.level ≤ va ∨ va + size ≤ c.va) :
    ¬ Within l va size c.level c.va := by
  rintro ⟨_, p, hp, hp', ha⟩
  have ha := ha.symm
  rw [agree_iff (show p < span (l + 1) by omega) hc.lt hc.level,
    same_block_iff (by decide) hc.va] at ha
  change c.va ≤ p ∧ p < c.va + span c.level at ha
  omega

theorem prepareLoop_extends (fuel : Nat) {v : Nat} (h : WF l n)
    (room : Nat) {answer : Except NestError Unit}
    (hr : prepareLoop l fuel v pa size n room = (answer, n', room')) :
    Extends l (Within l v size) n n' := by
  induction fuel generalizing v pa size n room with
  | zero =>
    cases hr
    exact .refl h
  | succ fuel ih =>
    unfold prepareLoop at hr
    split at hr
    · cases hr
      exact .refl h
    next hs =>
    obtain ⟨hle, _, _⟩ := chunkLevel_spec v pa (Nat.pos_of_ne_zero hs) (maxLevel l)
    rcases hc : prepareChunk l v (chunkLevel v pa size (maxLevel l)) n room with ⟨a, n1, room1⟩
    obtain ⟨hext, ht, _⟩ := prepareChunk_spec
      ((chunkLevel_le _ _ _ _).trans (maxLevel_le l)) h room hc
    have hext := hext.mono (f := Within l v size)
      fun k q hkq => ⟨hkq.1, v, le_rfl, by omega, hkq.2⟩
    rw [hc] at hr
    cases a with
    | error e =>
      cases hr
      exact hext
    | ok t =>
      have hspan : span t ≤ size :=
        (Nat.le_of_dvd (span_pos _) (span_dvd (ht t rfl))).trans hle
      refine hext.trans ((ih hext.wf room1 hr).mono fun k q ⟨hk, p, hp, hp', ha⟩ => ?_)
      exact ⟨hk, p, by omega, by omega, ha⟩

/-- Entries that were free have their tables. -/
theorem prepareLoop_ready (fuel : Nat) {v : Nat} (h : WF l n)
    (hfit : v + size ≤ span (l + 1)) (room : Nat)
    (hfree : ∀ c ∈ chunks l fuel v pa size, NoTable l n c)
    (hr : prepareLoop l fuel v pa size n room = (.ok (), n', room')) :
    ∀ c ∈ chunks l fuel v pa size, Ready l n' c := by
  induction fuel generalizing v pa size n room with
  | zero => simp [chunks]
  | succ fuel ih =>
    unfold prepareLoop at hr
    unfold chunks at hfree ⊢
    split at hr
    · next hs => simp [hs]
    next hs =>
    rw [if_neg hs] at hfree ⊢
    simp only [mem_cons, forall_eq_or_imp] at hfree ⊢
    have hpos := span_pos (chunkLevel v pa size (maxLevel l))
    obtain ⟨hle, hdv, hdp⟩ :=
      chunkLevel_spec v pa (Nat.pos_of_ne_zero hs) (maxLevel l)
    have htop := (chunkLevel_le v pa size (maxLevel l)).trans (maxLevel_le l)
    rcases hc : prepareChunk l v (chunkLevel v pa size (maxLevel l)) n room with ⟨a, n1, room1⟩
    obtain ⟨_, _, hspec⟩ := prepareChunk_spec htop h room hc
    rw [hc] at hr
    cases a with
    | error e => simp at hr
    | ok t =>
      obtain ⟨ht, hext, hready⟩ := hspec pa hfree.1 rfl
      cases ht
      have hrest := prepareLoop_extends fuel hext.wf room1 hr
      refine ⟨?_, ih hext.wf (by omega) room1 (fun c hc' => ?_) hr⟩
      · -- the rest of the range is past the chunk
        have hplaced : Placed l ⟨chunkLevel v pa size (maxLevel l), v, pa⟩ :=
          ⟨htop, hdv, hdp, by dsimp only; omega⟩
        exact hrest.ready (hplaced.not_within (by omega) (.inl le_rfl)) hready
      refine hext.noTable ?_ (hfree.2 c hc')
      rintro ⟨_, ha⟩
      obtain ⟨hcl, hcv, _, hge, hfit', _⟩ := mem_chunks fuel hc'
      have hcpos := span_pos c.level
      have ha := ha.symm
      rw [agree_iff (show v < span (l + 1) by omega) (show c.va < span (l + 1) by omega)
        (hcl.trans (maxLevel_le l)), same_block_iff (by decide) hcv] at ha
      omega

end TableNode

end Sqware.Nest
