import Sqware.Operator.Leads

/-!
# Runs of the tree

Every call is a sequence of edits, so the invariant holds after any calls, whatever is live and
whatever the kernel answers.

    pane_keeps_revision a pane's own revision does not change with its children
-/

namespace Sqware.Operator

open Relation Segments

namespace Tree

variable {t t' : Tree} {live : GrantKey → Bool} {k : Kernel}

/-! ## Calls are edits -/

abbrev Edits : Tree → Tree → Prop := ReflTransGen Edit

theorem revision_eq {n : Nat} (h : checkedAdd t.nextRevision 1 = some n) :
    n = t.nextRevision + 1 := (checkedAdd_eq_some.1 h).1

variable {id : EntryId} {p : Placement}

theorem overwrite_edits {s : Slot} (hs : t.slot id = some s) (hleaf : s.node.inner = [])
    (hp : p.node.inner = []) : Edits t (t.overwrite p id s).2 := by
  unfold overwrite
  split
  · exact .refl
  next n hn =>
  obtain rfl := revision_eq hn
  refine .single (.overwrite _ hs hleaf ?_ ?_ ?_)
  · exact hp
  · rfl
  · rfl

theorem rebind_edits (hp : p.node.inner = []) : Edits t (t.rebind live k p id).2 := by
  unfold rebind
  split
  · exact .refl
  split
  · exact .refl
  next s hs =>
  split
  · exact .refl
  split
  · next hn =>
    split
    · exact overwrite_edits hs (by rw [hn]; rfl) hp
    · exact .refl
  · next hn => exact overwrite_edits hs (by rw [hn]; rfl) hp
  · exact .refl

theorem put_edits (hvalid : validName p.name = true) (hp : p.node.inner = []) :
    Edits t (t.put live k p).2 := by
  unfold put
  split
  · exact .refl
  next l hl =>
  split
  · exact rebind_edits hp
  next hfind =>
  unfold create
  split
  · exact .refl
  split
  · exact .refl
  next n hn =>
  obtain rfl := revision_eq hn
  refine .single (.create ⟨p.name, p.node, t.nextRevision + 1, p.authority, p.view, p.resourceId⟩
    hl (fun id hid r hr he => ?_) hvalid hp rfl)
  have := List.find?_eq_none.1 hfind id hid
  rw [hr] at this
  simp [he] at this

theorem partAt_edits {place : Where} {name : Text} {authority : Option GrantKey}
    (hvalid : validName name = true) : Edits t (t.partAt live k place name authority).2 := by
  unfold partAt
  split
  · exact .refl
  · split
    · exact .refl
    · split <;> exact .refl
  have h : Edits t (t.put live k ⟨place, name, .pane [], authority, 0, 0⟩).2 :=
    put_edits hvalid rfl
  split <;>
  · next he =>
    rw [he] at h
    exact h

theorem partEntry_edits {p : PartEntry} (hvalid : validName p.name = true) :
    Edits t (t.partEntry live k p).2 := by
  unfold partEntry
  split
  · exact .refl
  next place _ =>
  have h : Edits t (t.partAt live k place p.name p.authority).2 := partAt_edits hvalid
  split <;>
  · next he =>
    rw [he] at h
    exact h

variable {authority : GrantKey}

theorem land_edits {place : Where} {name : Text} {pie : PieToken} {permit : Permit} {owner : TaskId}
    {view resourceId : Nat} (hvalid : validName name = true) :
    Edits t (t.land live k place name pie permit owner authority view resourceId).2 := by
  unfold land
  split
  · exact .refl
  have h : Edits t (t.put live k
      ⟨place, name, .tile pie permit (some owner), some authority, view, resourceId⟩).2 :=
    put_edits hvalid rfl
  split <;>
  · next he =>
    rw [he] at h
    exact h

theorem bindAt_edits {b : BindEntry} (hvalid : validName b.name = true) :
    Edits t (t.bindAt live k b).2 := by
  unfold bindAt
  split
  · exact .refl
  next place _ =>
  split
  · exact .refl
  · split
    · split <;> exact .refl
    · exact .refl
  have h : Edits t (t.land live k place b.name b.pie b.permit b.owner b.authority b.view
      b.resourceId).2 := land_edits hvalid
  split <;>
  · next he =>
    rw [he] at h
    exact h

variable {r : ReplaceEntry}

theorem exchange_edits {s : Slot} {old : PieToken} (hs : t.slot r.binding.entryId = some s)
    (hleaf : s.node.inner = []) : Edits t (t.exchange k r s old).2 := by
  unfold exchange
  dsimp only
  split
  · exact .refl
  split
  · exact .refl
  next n hn =>
  obtain rfl := revision_eq hn
  split
  · exact .refl
  refine .single (.overwrite _ hs hleaf ?_ ?_ ?_)
  · rfl
  · rfl
  · rfl

theorem relocate_edits (h : t.Inv) : Edits t (t.relocate live k r).2 := by
  unfold relocate
  split
  · exact .refl
  next place name hloc =>
  obtain ⟨-, s, hs, rfl⟩ := locate_spec hloc
  have h : Edits t (t.land live k place s.name r.pie r.permit r.owner r.authority r.view
      r.resourceId).2 := land_edits (h.valid hs)
  split <;>
  · next he =>
    rw [he] at h
    exact h

theorem replaceBinding_edits (h : t.Inv) : Edits t (t.replaceBinding live k r).2 := by
  unfold replaceBinding
  split
  · exact .refl
  split
  · exact relocate_edits h
  next s hs =>
  split
  · next hn =>
    split
    · exact exchange_edits hs (by rw [hn]; rfl)
    · exact relocate_edits h
  · exact relocate_edits h

theorem trim_edits : Edits t (t.trim k id).2 := by
  unfold trim
  split
  · exact .refl
  next s hs =>
  split
  · next hn => exact .single (.remove hs (by rw [hn]; rfl))
  · exact .refl
  next hn =>
  split
  · exact .single (.remove hs (by rw [hn]; rfl))
  · exact .refl

theorem find_edits : Edits t (t.find live k id).2 := by
  unfold find
  split
  · exact .refl
  split
  · exact .refl
  next s hs =>
  split
  · exact .refl
  next hn =>
  split
  · exact .refl
  · exact .single (.remove hs (by rw [hn]; rfl))

theorem unbindBinding_edits {b : Binding} : Edits t (t.unbindBinding live k b).2 := by
  unfold unbindBinding
  split
  · exact .refl
  · exact .refl
  · exact trim_edits

theorem unpart_edits {e : Entry} : Edits t (t.unpart live k e).2 := by
  unfold unpart
  split
  · exact .refl
  · exact .refl
  · split
    · exact trim_edits
    · exact .refl

theorem sweep_edits {panes : Bool} {ids : List EntryId} :
    Edits t (sweep k authority panes t ids).2 := by
  induction ids generalizing t with
  | nil => exact .refl
  | cons id ids ih =>
    unfold sweep
    split
    · have h : Edits t (t.trim k id).2 := trim_edits
      split
      · next he =>
        rw [he] at h
        exact h
      · next he =>
        rw [he] at h
        exact h.trans ih
    · exact ih

theorem cleanupAuthority_edits : Edits t (t.cleanupAuthority k authority).2 := by
  unfold cleanupAuthority
  have h : Edits t (sweep k authority false t (List.range t.slots.length).reverse).2 := sweep_edits
  split
  · next he =>
    rw [he] at h
    exact h
  · next he =>
    rw [he] at h
    exact h.trans sweep_edits

end Tree

/-! ## Calls -/

/-- A call on the tree. -/
inductive TreeCall
  | part (p : PartEntry)
  | bind (b : BindEntry)
  | replace (r : ReplaceEntry)
  | unbind (b : Binding)
  | unpart (e : Entry)
  | find (id : EntryId)
  | cleanup (authority : GrantKey)

namespace Tree

variable {t t' : Tree} {live : GrantKey → Bool} {k : Kernel}

-- a request to part or bind is refused before it comes here if its name is not a valid one
def step (t : Tree) (live : GrantKey → Bool) (k : Kernel) : TreeCall → Tree
  | .part p => if validName p.name then (t.partEntry live k p).2 else t
  | .bind b => if validName b.name then (t.bindAt live k b).2 else t
  | .replace r => (t.replaceBinding live k r).2
  | .unbind b => (t.unbindBinding live k b).2
  | .unpart e => (t.unpart live k e).2
  | .find id => (t.find live k id).2
  | .cleanup authority => (t.cleanupAuthority k authority).2

/-- Every call is a sequence of edits. -/
theorem step_edits (h : t.Inv) (call : TreeCall) : Edits t (t.step live k call) := by
  cases call with
  | part p =>
    simp only [step]
    split
    · next hvalid => exact partEntry_edits hvalid
    · exact .refl
  | bind b =>
    simp only [step]
    split
    · next hvalid => exact bindAt_edits hvalid
    · exact .refl
  | replace r => exact replaceBinding_edits h
  | unbind b => exact unbindBinding_edits
  | unpart e => exact unpart_edits
  | find id => exact find_edits
  | cleanup authority => exact cleanupAuthority_edits

/-- The trees there can be. -/
inductive Runs (actor : TaskId) : Tree → Prop
  | new : Runs actor (.new actor)
  | step {t : Tree} (live : GrantKey → Bool) (k : Kernel) (call : TreeCall) :
      Runs actor t → Runs actor (t.step live k call)

theorem inv_new (actor : TaskId) : (Tree.new actor).Inv := by
  have hslot : ∀ id, (Tree.new actor).slot id = none := fun id => rfl
  have hch : ∀ w, (Tree.new actor).children w = [] := by
    intro w
    cases w <;> rfl
  constructor <;> simp [hslot, hch]

theorem edits_inv (h : t.Inv) (he : Edits t t') : t'.Inv := by
  induction he with
  | refl => exact h
  | tail _ he ih => exact edit_inv ih he

theorem runs_inv {actor : TaskId} (h : Runs actor t) : t.Inv := by
  induction h with
  | new => exact inv_new actor
  | step live k call _ ih => exact edits_inv ih (step_edits ih call)

theorem edits_careful (h : t.Inv) (he : Edits t t') : ReflTransGen Careful t t' := by
  induction he with
  | refl => exact .refl
  | tail hs he ih => exact ih.tail (edit_careful (edits_inv h hs) he)

/-! ## What holds of every tree -/

/-- After any calls the tree is a tree: each node is in one place, reached from the root without
cycles, under names that differ among siblings; revisions are at most the counter's, every step is a
row of careful edits, and the way up from a node ends and spells its path. -/
theorem tree_stays {actor : TaskId} (h : Runs actor t) :
    (∀ w, (t.children w).Nodup) ∧
    (∀ w w' id, id ∈ t.children w → id ∈ t.children w' → w = w') ∧
    (∀ id, (∃ w, id ∈ t.children w) ↔ (t.slot id).isSome) ∧
    (∀ w, ¬ TransGen t.Child w w) ∧
    (∀ id, (t.slot id).isSome → ReflTransGen t.Child .root (.node id)) ∧
    (∀ w a b s r, a ∈ t.children w → b ∈ t.children w → t.slot a = some s → t.slot b = some r →
      s.name = r.name → a = b) ∧
    (∀ id s, t.slot id = some s → s.revision ≤ t.nextRevision) ∧
    (∀ live k call, ReflTransGen Careful t (t.step live k call)) ∧
    (∀ id, (t.climb (t.slots.length + 1) id []).isSome) ∧
    (∀ id road, t.roadTo id = some road →
      ∃ names, t.Leads .root names (.node id) ∧ road = join '/' names) := by
  have hi := runs_inv h
  refine ⟨hi.nodup, @hi.unique, hi.live, Forest.acyclic rank (rank_child hi), fun id hid => ?_,
    @hi.names, @hi.revision, fun live k call => edits_careful hi (step_edits hi call), fun id => ?_,
    fun id road => roadTo_leads hi⟩
  · obtain ⟨s, hs⟩ := Option.isSome_iff_exists.1 hid
    exact reachable hi hs
  · refine climb_ends hi [] (Nat.succ_pos _) fun hid => ?_
    obtain ⟨s, hs⟩ := Option.isSome_iff_exists.1 hid
    exact Nat.lt_succ_of_lt (slot_lt hs)

/-! ## A run -/

private def willing : Kernel := ⟨true, fun _ => true, fun _ => true⟩

/-- A pane and a pane inside of it. -/
private def nested (calls : List TreeCall) : Tree :=
  calls.foldl (fun t call => t.step (fun _ => true) willing call) (Tree.new 1)

private def outer : TreeCall := .part ⟨⟨1, .root⟩, ['a'], none⟩

private def inner : TreeCall := .part ⟨⟨1, .node 0⟩, ['b'], none⟩

/-- The road to the inner pane has the names of both. -/
theorem tree_stays_nested :
    (nested [outer, inner]).roadTo 1 = some ['a', '/', 'b'] ∧
    ∃ names, (nested [outer, inner]).Leads .root names (.node 1) ∧
      ['a', '/', 'b'] = join '/' names := by
  have hroad : (nested [outer, inner]).roadTo 1 = some ['a', '/', 'b'] := by decide +kernel
  have hrun : Runs 1 (nested [outer, inner]) :=
    .step (fun _ => true) willing inner (.step (fun _ => true) willing outer .new)
  exact ⟨hroad, (tree_stays hrun).2.2.2.2.2.2.2.2.2 1 _ hroad⟩

/-- The slot of the outer pane changes when a node is made inside, and its revision does not. -/
theorem pane_keeps_revision :
    (nested [outer]).slot 0 = some ⟨['a'], .pane [], 1, none, 0, 0⟩ ∧
    (nested [outer, inner]).slot 0 = some ⟨['a'], .pane [1], 1, none, 0, 0⟩ := by
  decide +kernel

end Tree

end Sqware.Operator
