import Sqware.Pend.Descent
import Sqware.Pend.Run

/-!
# Authority never grows

A pie starts with a permission its parent contains and a window inside its parent's.  Later its
permission only narrows, its window stays, and `forget` may give it the parent of its parent.  So
windows nest along every edge.  Permissions do not, since a parent can be narrowed below its child;
they are bounded by what the root of the tree had when it was made, which a run is traced with here
(`Traced`).
-/

namespace Sqware.Ledger

open Relation

/-! ## Windows -/

/-- The window of the grant, or the whole source. -/
def Pie.window (q : Pie) (source : Window) : Window := q.grant.window.getD source

/-- The child has the resource of its parent, and a window inside the parent's. -/
def nested (r q : Pie) : Prop :=
  q.mail = r.mail ∧ ∀ s, q.mail.source = some s → (q.window s).Within (r.window s)

theorem vests_nested {caller : TaskId} {pie granted : Pie} (hv : Vests caller pie granted) :
    nested pie granted := by
  refine ⟨hv.mail, fun s hs => ?_⟩
  rcases hv.window with he | ⟨outer, inner, ho, hw, hlo, hhi⟩
  · rw [Pie.window, Pie.window, he]
    exact .refl _
  · rw [hv.mail, ho, Option.some.injEq] at hs
    rw [Pie.window, Pie.window, hw, ← hs]
    exact ⟨hlo, hhi⟩

theorem nested_inherited : Inherited nested where
  vest := vests_nested
  trans h h' := ⟨h'.1.trans h.1, fun s hs => (h'.2 s hs).trans (h.2 s (h'.1 ▸ hs))⟩
  kept {r r' q q'} h hr hq := by
    refine ⟨by rw [hq.mail, hr.mail, h.1], fun s hs => ?_⟩
    rw [Pie.window, Pie.window, hq.window, hr.window]
    exact h.2 s (hq.mail ▸ hs)

/-- The window lies in the source; where there is no source there is no window. -/
def Pie.Inside (q : Pie) : Prop :=
  (∀ s, q.mail.source = some s → (q.window s).Within s) ∧
    (q.mail.source = none → q.grant.window = none)

theorem inside_move {g g' : Grove} (hm : Move g g')
    (h : ∀ t k q, g.pie t k = some q → q.Inside) (t : TaskId) (k : Token) (q' : Pie)
    (hq' : g'.pie t k = some q') : q'.Inside := by
  have hkept : ∀ {q : Pie}, q.Inside → q.Kept q' → q'.Inside := by
    intro q hin hk
    refine ⟨fun s hs => ?_, fun hs => ?_⟩
    · rw [Pie.window, hk.window]
      exact hin.1 s (hk.mail ▸ hs)
    · rw [hk.window]
      exact hin.2 (hk.mail ▸ hs)
  cases arises hm hq' with
  | root hr _ =>
    refine ⟨fun s _ => ?_, fun _ => hr.2.2.2⟩
    rw [Pie.window, hr.2.2.2]
    exact .refl s
  | vest hp hv _ =>
    have hin := h _ _ _ hp
    have hn := vests_nested hv
    refine ⟨fun s hs => (hn.2 s hs).trans (hin.1 s (hn.1 ▸ hs)), fun hs => ?_⟩
    rcases hv.window with he | ⟨outer, _, ho, _⟩
    · rw [he]
      exact hin.2 (hn.1 ▸ hs)
    · rw [hn.1, ho] at hs
      simp at hs
  | kept hq hk _ _ => exact hkept (h t k _ hq) hk
  | moved hq hk _ _ _ _ _ => exact hkept (h t k _ hq) hk

/-! ## The permission a tree started with -/

/-- The pie of a token, whoever holds it. -/
def World.find (w : World) (k : Token) : Option Pie :=
  (List.range w.nextTask).findSome? fun t => w.locate t k

/-- `b k` is the permission with which the root of the tree of `k` was made.  A pie that a step
makes is a root, or in the tree of its sire. -/
def birth (b : Token → Option Permission) (w w' : World) (k : Token) : Option Permission :=
  match w.find k, w'.find k with
  | none, some q =>
    match q.sire with
    | none => some q.permission
    | some p => b p
  | _, _ => b k

/-- A world with the permissions that its tokens were born with. -/
inductive Traced : World → (Token → Option Permission) → Prop
  | init : Traced {} fun _ => none
  | step {w w' : World} {b : Token → Option Permission} (h : Traced w b) (hs : Step w w') :
      Traced w' (birth b w w')

variable {w : World}

theorem Traced.inv {b : Token → Option Permission} (h : Traced w b) : Inv w := by
  induction h with
  | init => exact inv_init
  | step _ hs ih => exact (step_does ih hs).inv

variable {t : TaskId} {k : Token}

theorem find_of_locate (hi : Inv w) {q : Pie} (h : w.locate t k = some q) : w.find k = some q := by
  have hlt : t < w.nextTask := hi.tree.present_known (upgrade_of_locate h)
  cases hf : w.find k with
  | none =>
    have := List.findSome?_eq_none_iff.1 hf t (List.mem_range.2 hlt)
    rw [h] at this
    simp at this
  | some r =>
    obtain ⟨u, _, hu⟩ := List.exists_of_findSome?_eq_some hf
    obtain rfl := hi.tree.apart h hu
    rw [← h, hu]

theorem find_of_unused (h : w.grove.Unused k) : w.find k = none :=
  List.findSome?_eq_none_iff.2 fun t _ => h.held t

/-- Every pie is bounded by what its tree started with. -/
def Bounded (w : World) (b : Token → Option Permission) : Prop :=
  ∀ t k q, w.locate t k = some q → ∃ p, b k = some p ∧ p.contains q.permission = true

variable {w' : World}

theorem bounded_step {b : Token → Option Permission} (hi : Inv w) (hi' : Inv w')
    (hm : Move w.grove w'.grove) (h : Bounded w b) : Bounded w' (birth b w w') := by
  intro t k q' hq'
  have hnew := find_of_locate hi' hq'
  have hkept : ∀ {q : Pie}, w.locate t k = some q → q.Kept q' →
      ∃ p, birth b w w' k = some p ∧ p.contains q'.permission = true := by
    intro q hq hk
    obtain ⟨p, hp, hc⟩ := h t k q hq
    refine ⟨p, ?_, Permission.contains_trans hc hk.contains⟩
    rw [birth, find_of_locate hi hq]
    exact hp
  cases arises hm hq' with
  | root hr hk =>
    refine ⟨q'.permission, ?_, Permission.contains_refl _⟩
    simp only [birth, find_of_unused hk, hnew, hr.1]
  | @vest caller pie hp hv hk =>
    obtain ⟨p, hb, hc⟩ := h caller pie.token pie hp
    refine ⟨p, ?_, Permission.contains_trans hc (contains_of_narrows hv.permission)⟩
    simp only [birth, find_of_unused hk, hnew, hv.sire, hb]
  | kept hq hk _ _ => exact hkept hq hk
  | moved hq hk _ _ _ _ _ => exact hkept hq hk

/-! ## Top theorem -/

/-- A step after which the task still holds the pie. -/
def Holding (t : TaskId) (k : Token) (w w' : World) : Prop :=
  Step w w' ∧ ∃ q, w'.locate t k = some q

/-- No pie has more than it was born with, or than its parent. -/
structure Authority (w : World) (b : Token → Option Permission) : Prop where
  birth : ∀ t k q, w.locate t k = some q → ∃ p, b k = some p ∧ p.contains q.permission = true
  shrinks : ∀ t k w' q q', ReflTransGen (Holding t k) w w' → w.locate t k = some q →
    w'.locate t k = some q' → q.permission.contains q'.permission = true
  parent : ∀ t k q p l r, w.locate t k = some q → q.sire = some p → q.lord = some l →
    w.locate l p = some r → nested r q
  inside : ∀ t k q, w.locate t k = some q → q.Inside
  forget : ∀ t k pie n tasks nodes f taken w', w.locate t k = some pie →
    ReflTransGen (Turn (forgetCall t k) (forgetLocked (forgetCall t k)) fun _ _ => False)
      (w, .locate retries) (w, .commit n tasks nodes) →
    forgetLocked (forgetCall t k) f w tasks nodes = some (.ok (.ok taken), w') →
    f.alive pie.mail = true → ∀ u j, w.grove.Child (t, k) (u, j) →
    ∃ q p l r, w'.locate u j = some q ∧ q.sire = some p ∧ q.lord = some l ∧
      w'.locate l p = some r ∧ r.permission.contains q.permission = true

theorem shrinks_run (hi : Inv w) (h : ReflTransGen (Holding t k) w w') {q : Pie}
    (hq : w.locate t k = some q) :
    Inv w' ∧ ∃ q', w'.locate t k = some q' ∧ q.permission.contains q'.permission = true := by
  induction h with
  | refl => exact ⟨hi, q, hq, Permission.contains_refl _⟩
  | @tail v v' _ hs ih =>
    obtain ⟨hiv, r, hr, hc⟩ := ih
    obtain ⟨hs, q', hq'⟩ := hs
    have hd := step_does hiv hs
    -- the token is in use, so the pie is the one from before
    have hused : ¬ v.grove.Unused k := by
      intro hk
      have hr' : v.grove.pie t k = some r := hr
      rw [hk.held] at hr'
      simp at hr'
    have hkept : r.Kept q' := by
      cases arises hd.move hq' with
      | root _ hk => exact (hused hk).elim
      | vest _ _ hk => exact (hused hk).elim
      | kept hr' hk _ _ => exact Option.some.inj (hr.symm.trans hr') ▸ hk
      | moved hr' hk _ _ _ _ _ => exact Option.some.inj (hr.symm.trans hr') ▸ hk
    exact ⟨hd.inv, q', hq', Permission.contains_trans hc hkept.contains⟩

theorem forget_contained {f : Facts} (hi : Inv w) (h : ForgetSpec f w w' t k) {pie : Pie}
    (hp : w.locate t k = some pie) (halive : f.alive pie.mail = true) {u : TaskId} {j : Token}
    (hc : w.grove.Child (t, k) (u, j)) :
    ∃ q p l r, w'.locate u j = some q ∧ q.sire = some p ∧ q.lord = some l ∧
      w'.locate l p = some r ∧ r.permission.contains q.permission = true := by
  obtain ⟨pie', replacement, parent, lord, hp', ho, hr, hg, hcont⟩ := h.spliced
  cases hp.symm.trans hp'
  obtain ⟨hs, hl, _⟩ := origin_eq_some.1 ho
  obtain ⟨q, hq, hqs, hql⟩ := hi.tree.edge hc.1 hc.2
  have hpie : ∀ v i, w'.locate v i = (w.grove.splice t k lord parent).pie v i := fun v i =>
    congrArg (fun g : Grove => g.pie v i) hg
  have hlt : parent < k := hi.tree.order hp hs
  have hgt : k < j := hi.tree.order hq hqs
  have hadopt : Grove.adopt t k lord parent q = q.parent parent lord := if_pos ⟨hqs, hql⟩
  refine ⟨_, parent, lord, _,
    (hpie u j).trans (splice_pie.2 ⟨fun hx => hgt.ne hx.2.symm, q, hq, rfl⟩), ?_, ?_,
    (hpie lord parent).trans (splice_pie.2 ⟨fun hx => hlt.ne hx.2, replacement, hr, rfl⟩), ?_⟩
  · rw [hadopt]
    rfl
  · rw [hadopt]
    rfl
  have hperm : ((Grove.adopt t k lord parent replacement).disown [(t, k)]).permission =
      replacement.permission := by
    unfold Grove.adopt
    split <;> rfl
  rw [hperm, hadopt]
  exact hcont halive u j q hc hq

/-- In every run a pie's permission is inside the one its root was made with, never grows while a
task holds the pie, and is inside its parent's, with the window; and a `forget` that nobody disturbs
leaves the children inside their new parent. -/
theorem authority_never_grows (w : World) (b : Token → Option Permission) (h : Traced w b) :
    Authority w b := by
  have hi := h.inv
  have hall : Bounded w b ∧ Descends nested w.grove ∧ ∀ t k q, w.grove.pie t k = some q →
      q.Inside := by
    induction h with
    | init =>
      refine ⟨?_, ?_, ?_⟩ <;> simp [Bounded, Descends, World.grove, World.locate]
    | @step w w' b h hs ih =>
      have hd := step_does h.inv hs
      obtain ⟨hb, hn, hin⟩ := ih h.inv
      exact ⟨bounded_step h.inv hi hd.move hb, descends_move nested_inherited hd.move hn,
        inside_move hd.move hin⟩
  obtain ⟨hb, hn, hin⟩ := hall
  refine ⟨hb, fun t k w' q q' hrun hq hq' => ?_, hn, hin, ?_⟩
  · obtain ⟨_, q'', hq'', hc⟩ := shrinks_run hi hrun hq
    exact Option.some.inj (hq'.symm.trans hq'') ▸ hc
  intro t k pie n tasks nodes f taken w' hp hrun hfin halive u j hc
  refine forget_contained hi (forgetLocked_spec hi ?_ hfin) hp halive hc
  rcases alone_run hi (fun _ _ _ _ _ _ => forgetLocked_kept) hrun with
    ⟨_, ⟨r, hr⟩ | ⟨hseen, _, hshallow⟩⟩ | ⟨r, f, tasks, nodes, hr, _⟩
  · simp at hr
  · exact below_of_shallow hi hseen hshallow
  · simp at hr

/-- A Pole of four pages, and a pie for the second of them derived from the first. -/
theorem authority_of_derived : ∃ w b q, Traced w b ∧ w.locate 1 2 = some q ∧
    q.grant.window = some ⟨1, 1, by decide⟩ ∧ b 2 = some ⟨7#32⟩ ∧ Authority w b := by
  have h := ((Traced.init.step (.operation .create)).step
    (.operation (@Operation.tryNew _ _ {} (.pole 0 4 (by decide)) 0 ⟨7#32⟩ _ rfl))).step
    (.operation (@Operation.insert _ _ {} 1 _ _ (List.mem_singleton.2 rfl) rfl rfl))
  have h' := h.step (.operation
    (@Operation.publish _ _ {} 1 1 1 ⟨3#32⟩ 0 (some ⟨1, 1, by decide⟩) _ rfl))
  exact ⟨_, _, _, h', rfl, rfl, rfl, authority_never_grows _ _ h'⟩

end Sqware.Ledger
