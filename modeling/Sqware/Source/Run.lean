import Mathlib.Logic.Relation
import Sqware.Source.Slots

/-!
# Parts of a source are exclusive

The sections on sources as steps, each with what it lets in, and what holds along every run of
them.  A section that fails on its way may have reaped slots already; it lets nothing in.
-/

namespace Sqware.Source

open Ledger (Token TaskId PieFail Permission Window)
open Relation List

/-- What a section lets in, where it succeeds. -/
def admits {α : Type} (answer : Except PieFail α) (windows : List (RecordId × Window)) :
    List (RecordId × Window) :=
  match answer with
  | .ok _ => windows
  | .error _ => []

/-- Sections on sources, with the windows they let in: grants, mappings, references and transfers.
Grants of one branch are nested, which is the guard of `retarget`; a child holds its parent, which
is that of `drop`. -/
inductive Step (window : Token → Option Window) : World → List (RecordId × Window) → World → Prop
  | allocate (w : World) (pages : Nat) (pos : 0 < pages) (bound : pages < usizeSize) :
      Step window w [] { w with
        records := fun j => if j = w.nextRecord then some { pages, pos, bound } else w.records j
        nextRecord := w.nextRecord + 1 }
  | create (w : World) (i : RecordId) (token : Token) (permission : Permission)
      (h : ∀ r, w.records i = some r → r.phase = .priv ∧ r.inflight = []) :
      Step window w [] (w.modify i fun r => { r with
        phase := .root token, pole := .live, authorities := [⟨token, permission⟩] })
  | derive {f : Facts} {w w' : World} {parent : RecordId} {branch : Token}
      {seen : Option Permission} {ranged retains shared : Bool} {request : Window} {token : Token}
      {answer : Except PieFail Token}
      (h : derivePole window f w parent branch seen ranged retains shared request token =
        (answer, w')) :
      Step window w [] w'
  | accord {f : Facts} {w w' : World} {i : RecordId} {r : Authorization} {src token : Token}
      {subset : Permission} {answer : Except PieFail Token} (hr : w.records i = some r)
      (h : accord window f w i src token subset = (answer, w')) :
      Step window w (admits answer [(i, (window token).getD r.whole)]) w'
  | openPole {f : Facts} {w w' : World} {i : RecordId} {r : Authorization} {token : Token}
      {write : Bool} {binding : Nat} {answer : Except PieFail Unit} (hr : w.records i = some r)
      (h : openPole window f w i token write binding = (answer, w')) :
      Step window w (admits answer [(i, (window token).getD r.whole)]) w'
  | acquire {f : Facts} {w w' : World} {i : RecordId} {request : Window} {holder : Option TaskId}
      {answer : Except PieFail Unit} (h : acquire f w i request holder = (answer, w')) :
      Step window w (admits answer [(i, request)]) w'
  | attach {f : Facts} {w w' : World} {i : RecordId} {branch : Option Token} {write : Bool}
      {request : Window} {own : Option Nat} {answer : Except PieFail Unit}
      (h : attachCommit f w i branch write request own = (answer, w')) :
      Step window w (admits answer [(i, request)]) w'
  | transfer {f : Facts} {w w' : World} {key : Nat} {a b : End} {answer : Except PieFail Unit}
      (h : transferAdmit f w key a b = (answer, w')) :
      Step window w
        (admits answer [(a.source, a.geometry.window), (b.source, b.geometry.window)]) w'
  | enterPublish {room : Bool} {w w' : World} {i : RecordId} {key : Nat} {branch : Option Token}
      {write : Bool} {answer : Except PieFail Unit}
      (h : w.enterFlight room i key none branch write = (answer, w')) : Step window w [] w'
  | leavePublish (w : World) (i : RecordId) (key : Nat) : Step window w [] (w.leavePublish i key)
  | registerBinding (w : World) (i : RecordId) (b : Nat) :
      Step window w [] (w.registerBinding i b)
  | releaseBinding (w : World) (i : RecordId) (b : Nat) : Step window w [] (w.releaseBinding i b)
  | releaseRetention (w : World) (i : RecordId) (id : Nat) :
      Step window w [] (w.releaseRetention i id)
  | setGrant (w : World) (i : RecordId) (token : Token) (permission : Permission) :
      Step window w [] (w.setGrant i token permission)
  | releaseGrant (w : World) (i : RecordId) (token : Token) :
      Step window w [] (w.releaseGrant i token)
  | pole (w : World) (i : RecordId) (pole : Pole) :
      Step window w [] (w.modify i fun r => { r with pole })
  | gate (w : World) (i : RecordId) (revoked : Bool) :
      Step window w [] (w.modify i fun r => { r with revoked })
  | reap (w : World) (i : RecordId) : Step window w [] (w.reapDerivations i)
  | settle (w : World) (i : RecordId) : Step window w [] (w.settle i)
  | retarget (w : World) (i : RecordId) (forgotten parent : Token)
      (h : ∀ r, w.records i = some r →
        ((window forgotten).getD r.whole).Within ((window parent).getD r.whole)) :
      Step window w [] (w.modify i fun r => { r with
        derivations := r.derivations.map fun x =>
          if x.token = forgotten then { x with token := parent } else x })
  | drop (w : World) (i : RecordId)
      (h : ∀ j r g, w.records j = some r → r.lineage ≠ some (i, g)) :
      Step window w [] { w with records := fun j => if j = i then none else w.records j }

/-! ## One step -/

/-- The source, the lineage and the slots of a record stay. -/
def Local (f : Authorization → Authorization) : Prop :=
  ∀ r, (f r).pages = r.pages ∧ (f r).lineage = r.lineage ∧ (f r).derivations = r.derivations

variable {f : Authorization → Authorization}

theorem Local.comp {g : Authorization → Authorization} (hg : Local g) (hf : Local f) :
    Local fun r => g (f r) := fun r =>
  ⟨(hg _).1.trans (hf r).1, (hg _).2.1.trans (hf r).2.1, (hg _).2.2.trans (hf r).2.2⟩

theorem Local.alike (hf : Local f) (w : World) (i : RecordId) : Alike w (w.modify i f) := by
  refine ⟨rfl, le_rfl, fun hr' => ?_⟩
  obtain ⟨r, hr, rfl⟩ := modify_eq_some hr'
  split
  · exact ⟨r, hr, (hf r).1, (hf r).2.1, (hf r).2.2 ▸ .refl _⟩
  · exact ⟨r, hr, rfl, rfl, .refl _⟩

theorem Local.keeps (hf : Local f) : Keeps f := .of_eq fun r => (hf r).2.2

variable {r : Authorization} {request : Window} {window : Token → Option Window}

/-- `derive_pole` lets through proper parts of the source that are inside the branch. -/
theorem derivable_window {branch : Token}
    {seen : Option Permission} {ranged retains shared : Bool} {permission : Permission}
    (h : derivable window r branch seen ranged retains shared request = .ok permission) :
    request.Within ((window branch).getD r.whole) ∧ request.Within r.whole ∧
      request ≠ r.whole := by
  unfold derivable at h
  iterate 4
    split at h
    · simp at h
  simp only at h
  split at h
  swap
  · simp at h
  next outerEnd requestEnd ho hq =>
  obtain ⟨rfl, _⟩ := checkedAdd_eq_some.1 ho
  obtain ⟨rfl, _⟩ := checkedAdd_eq_some.1 hq
  split at h
  · simp at h
  next hb =>
  split at h
  · simp at h
  next hp =>
  split at h
  · simp at h
  next hw =>
  simp only [Bool.or_eq_true, decide_eq_true_eq, not_or, Nat.not_lt] at hb
  refine ⟨hb, ⟨Nat.zero_le _, by simpa [Authorization.whole] using hp⟩, ?_⟩
  rintro rfl
  simp [Authorization.whole] at hw

/-- Slots that went are spent, and the windows admitted are clear. -/
structure Admits (window : Token → Option Window) (w : World) (admitted : List (RecordId × Window))
    (w' : World) : Prop where
  inv : Inv window w'
  drops : Drops w w'
  clear : ∀ a ∈ admitted, Clear w' a.1 a.2

section
variable {window : Token → Option Window} {w w1 w2 : World} {admitted : List (RecordId × Window)}

theorem Admits.sheds (h : Admits window w admitted w1) (hs : Sheds w1 w2) :
    Admits window w admitted w2 :=
  ⟨h.inv.alike hs.alike, h.drops.sheds hs, fun a ha => (h.clear a ha).alike hs.alike⟩

/-- A record that is not finished changes in place. -/
theorem Admits.modify (h : Admits window w admitted w1) {i : RecordId} (hf : Local f)
    (hn : ∀ r, w1.records i = some r → r.finished = false) :
    Admits window w admitted (w1.modify i f) :=
  ⟨h.inv.alike (hf.alike w1 i), h.drops.modify hf.keeps hn,
    fun a ha => (h.clear a ha).alike (hf.alike w1 i)⟩

theorem Admits.geometry (h : Admits window w admitted w1) {n : Nat} (hn : w1.nextGeometry ≤ n) :
    Admits window w admitted { w1 with nextGeometry := n } :=
  have ha : Alike w1 { w1 with nextGeometry := n } :=
    ⟨rfl, hn, fun hr => ⟨_, hr, rfl, rfl, .refl _⟩⟩
  ⟨h.inv.alike ha, h.drops, fun a hm => (h.clear a hm).alike ha⟩

theorem Admits.nil (h : Admits window w admitted w1) : Admits window w [] w1 :=
  ⟨h.inv, h.drops, by simp⟩

end

section
variable {window : Token → Option Window} {w w' : World} (hi : Inv window w)
include hi

theorem Admits.refl : Admits window w [] w :=
  ⟨hi, .refl w, by simp⟩

theorem admits_reap (i : RecordId) : Admits window w [] (w.reapDerivations i) :=
  (Admits.refl hi).sheds (reap_sheds hi i)

variable {i : RecordId}

theorem admits_modify (hf : Local f) : Admits window w [] (w.modify i f) :=
  ⟨hi.alike (hf.alike w i), drops_modify hf.keeps, by simp⟩

theorem admits_release {empty : Authorization → Bool} (hf : Local f) :
    Admits window w [] ((w.modify i f).settleIf i empty) :=
  (admits_modify hi hf).sheds (settleIf_sheds (admits_modify hi hf).inv i empty)

/-- What an admission let in is registered at the record it reaped. -/
theorem admits_register (hf : Local f) (hc : Clear (w.reapDerivations i) i request) :
    Admits window w [(i, request)] ((w.reapDerivations i).modify i f) := by
  have ha := hf.alike (w.reapDerivations i) i
  refine ⟨(admits_reap hi i).inv.alike ha, drops_reap_modify hi hf.keeps, fun a hm => ?_⟩
  obtain rfl := mem_singleton.1 hm
  exact hc.alike ha

/-- And goes again, where what follows fails. -/
theorem admits_withdraw {g : Authorization → Authorization} (hf : Local f) (hg : Local g)
    (hc : Clear (w.reapDerivations i) i request) :
    Admits window w [] (((w.reapDerivations i).modify i f).modify i g) :=
  modify_modify (f := f) g ▸ (admits_register hi (hg.comp hf) hc).nil

theorem admits_checked (hc : Clear (w.reapDerivations i) i request) :
    Admits window w [(i, request)] (w.reapDerivations i) :=
  ⟨(admits_reap hi i).inv, drops_reap hi i, fun _ hm => mem_singleton.1 hm ▸ hc⟩

/-! ### The sections -/

variable {f : Facts} {token : Token}

theorem derivePole_admits {parent : RecordId} {branch : Token} {seen : Option Permission}
    {ranged retains shared : Bool} {answer : Except PieFail Token}
    (h : derivePole window f w parent branch seen ranged retains shared request token =
      (answer, w')) : Admits window w [] w' := by
  unfold derivePole at h
  split at h
  · cases h
    exact .refl hi
  next r hr =>
  split at h
  · cases h
    exact .refl hi
  next permission hd =>
  split at h
  swap
  · cases h
    exact .refl hi
  split at h
  · cases h
    exact .refl hi
  split at h
  next e w1 he =>
    cases h
    exact check_error hi he ▸ admits_reap hi parent
  next w1 he =>
  obtain ⟨rfl, hc⟩ := check_clear hi he
  split at h
  · cases h
    exact admits_reap hi parent
  cases h
  obtain ⟨hbranch, hin, hne⟩ := derivable_window hd
  refine ⟨?_, drops_split hi, by simp⟩
  -- reaping leaves the source and its record in place
  obtain ⟨l, hl, _⟩ := (reap_sheds hi parent).record hr
  have hi' := (admits_reap hi parent).inv
  refine hi'.grows split_grows (fun hp => ?_) (fun i => by split <;> simp) fun hr0 hx => ?_
  · cases hp
    exact ⟨hi'.known hl, rfl, Nat.lt_succ_self _⟩
  · split at hx
    case isFalse => simp at hx
    next hp =>
    subst hp
    cases mem_singleton.1 hx
    cases hl.symm.trans hr0
    exact ⟨rfl, rfl, fun y hy => hc _ y hl hy, ⟨hin, hne⟩, hbranch⟩

theorem accord_admits {src : Token} {subset : Permission} {answer : Except PieFail Token}
    (hr : w.records i = some r) (h : accord window f w i src token subset = (answer, w')) :
    Admits window w (admits answer [(i, (window token).getD r.whole)]) w' := by
  unfold accord at h
  rw [hr] at h
  simp only at h
  iterate 2
    split at h
    · cases h
      exact .refl hi
  split at h
  next e w1 he =>
    cases h
    exact check_error hi he ▸ admits_reap hi i
  next w1 he =>
  obtain ⟨rfl, hc⟩ := check_clear hi he
  have hgrant : Local fun r => { r with authorities := r.authorities ++ [⟨token, subset⟩] } :=
    fun _ => ⟨rfl, rfl, rfl⟩
  split at h
  · cases h
    exact admits_reap hi i
  split at h
  · cases h
    have hm := admits_withdraw hi hgrant (g := fun r => { r with
      authorities := r.authorities.filter (·.token ≠ token) })
      (fun _ => ⟨rfl, rfl, rfl⟩) hc
    exact hm.sheds (settleIf_sheds hm.inv i _)
  · cases h
    exact admits_register hi hgrant hc

variable {answer : Except PieFail Unit}

theorem openPole_admits {write : Bool} {binding : Nat} (hr : w.records i = some r)
    (h : openPole window f w i token write binding = (answer, w')) :
    Admits window w (admits answer [(i, (window token).getD r.whole)]) w' := by
  unfold openPole at h
  rw [hr] at h
  simp only at h
  iterate 3
    split at h
    · cases h
      exact .refl hi
  split at h
  next e w1 he =>
    cases h
    exact check_error hi he ▸ admits_reap hi i
  next w1 he =>
  obtain ⟨rfl, hc⟩ := check_clear hi he
  have hbind : Local fun r => { r with bindings := r.bindings ++ [binding] } :=
    fun _ => ⟨rfl, rfl, rfl⟩
  split at h
  · cases h
    exact admits_checked hi hc
  split at h
  · cases h
    exact admits_reap hi i
  split at h
  · cases h
    exact admits_register hi hbind hc
  cases h
  split
  · have hm := admits_withdraw hi hbind (g := fun r => { r with
      bindings := r.bindings.filter (· ≠ binding) }) (fun _ => ⟨rfl, rfl, rfl⟩) hc
    exact hm.sheds (settleIf_sheds hm.inv i _)
  · exact (admits_register hi hbind hc).nil

theorem acquire_admits {holder : Option TaskId} (h : acquire f w i request holder = (answer, w')) :
    Admits window w (admits answer [(i, request)]) w' := by
  obtain ⟨hw, hc⟩ := checkUse_spec hi i request
  unfold acquire at h
  split at h
  next e w1 he =>
    rw [he] at hw
    obtain ⟨rfl, rfl⟩ := Prod.mk.inj h
    obtain rfl : w1 = _ := hw
    exact admits_reap hi i
  next w1 he =>
  rw [he] at hw hc
  obtain rfl : w1 = _ := hw
  have hc := hc rfl
  split at h
  · split at h
    · cases h
      exact admits_reap hi i
    · cases h
      exact admits_checked hi hc
  next task =>
  split at h
  · cases h
    exact admits_reap hi i
  have hret : Local fun r => { r with
      retentions := r.retentions ++ [(⟨(w.reapDerivations i).nextGeometry, request⟩, task)] } :=
    fun _ => ⟨rfl, rfl, rfl⟩
  split at h
  · cases h
    have hm := (admits_withdraw hi hret (g := fun r => { r with
      retentions := r.retentions.filter (·.1.id ≠ (w.reapDerivations i).nextGeometry) })
      (fun _ => ⟨rfl, rfl, rfl⟩) hc).geometry (Nat.le_succ _)
    exact hm.sheds (settle_sheds hm.inv i)
  · cases h
    exact (admits_register hi hret hc).geometry (Nat.le_succ _)

theorem attachCommit_admits {branch : Option Token} {write : Bool} {own : Option Nat}
    (h : attachCommit f w i branch write request own = (answer, w')) :
    Admits window w (admits answer [(i, request)]) w' := by
  unfold attachCommit at h
  split at h
  · cases h
    exact .refl hi
  split at h
  next e w1 he =>
    cases h
    exact check_error hi he ▸ admits_reap hi i
  next w1 he =>
  obtain ⟨rfl, hc⟩ := check_clear hi he
  cases h
  split
  · exact admits_checked hi hc
  · exact admits_reap hi i

end

/-! ### Transfers -/

theorem not_finished_of_permits {branch : Option Token} {write : Bool}
    (h : r.branchPermits branch write = true) : r.finished = false := by
  have hgrant : ∀ token, (r.grant token).any (covers · write) = true →
      r.authorities.any (fun a => !a.permission.isEmpty) = true := by
    intro token ht
    obtain ⟨permission, hp, _⟩ := (Option.any_eq_true _ _).1 ht
    obtain ⟨a, ha, hp⟩ := Option.bind_eq_some_iff.1 hp
    refine any_eq_true.2 ⟨a, Keyed.mem_of_get ha, ?_⟩
    split at hp
    · simp at hp
    next he => simpa using he
  have hauth : r.holdsAuthority = true := by
    unfold Authorization.branchPermits at h
    unfold Authorization.holdsAuthority
    cases hp : r.phase with
    | priv => rfl
    | root token =>
      simp only [hp, Bool.and_eq_true] at h
      refine Bool.and_eq_true_iff.2 ⟨h.1, ?_⟩
      cases branch with
      | some t => exact hgrant t h.2
      | none =>
        refine hgrant token ?_
        simpa only [Authorization.permissionUngated, hp] using h.2
  simp [Authorization.finished, hauth]

theorem enterFlight_cases {w w' : World} {room : Bool} {i : RecordId} {key : Nat}
    {g : Option Geometry} {branch : Option Token} {write : Bool} {answer : Except PieFail Unit}
    (h : w.enterFlight room i key g branch write = (answer, w')) :
    ((∃ e, answer = .error e) ∧ w' = w) ∨
    (answer = .ok () ∧ (∃ r, w.records i = some r ∧ r.finished = false) ∧
      w' = w.modify i fun r => { r with inflight := r.inflight ++ [(key, g)] }) := by
  unfold World.enterFlight at h
  split at h
  next hp =>
    split at h
    · cases h
      exact .inl ⟨⟨_, rfl⟩, rfl⟩
    cases h
    obtain ⟨r, hr, hp⟩ := (Option.any_eq_true _ _).1 hp
    rw [Bool.and_eq_true] at hp
    exact .inr ⟨rfl, ⟨r, hr, not_finished_of_permits hp.2⟩, rfl⟩
  · cases h
    exact .inl ⟨⟨_, rfl⟩, rfl⟩

theorem local_enter (key : Nat) (g : Option Geometry) :
    Local fun r => { r with inflight := r.inflight ++ [(key, g)] } :=
  fun _ => ⟨rfl, rfl, rfl⟩

theorem local_leave (key : Nat) :
    Local fun r => { r with inflight := r.inflight.filter (·.1 ≠ key) } :=
  fun _ => ⟨rfl, rfl, rfl⟩

theorem transferAdmit_admits {w w' : World} (hi : Inv window w)
    {f : Facts} {key : Nat} {a b : End} {answer : Except PieFail Unit}
    (h : transferAdmit f w key a b = (answer, w')) :
    Admits window w
      (admits answer [(a.source, a.geometry.window), (b.source, b.geometry.window)]) w' := by
  unfold transferAdmit at h
  split at h
  next e w1 he =>
    cases h
    exact check_error hi he ▸ admits_reap hi a.source
  next w1 he =>
  obtain ⟨rfl, hca⟩ := check_clear hi he
  have ha := admits_reap hi a.source
  have hb := reap_sheds ha.inv b.source
  split at h
  next e w2 he =>
    cases h
    exact check_error ha.inv he ▸ ha.sheds hb
  next w2 he =>
  obtain ⟨rfl, hcb⟩ := check_clear ha.inv he
  have hab : Admits window w [(a.source, a.geometry.window), (b.source, b.geometry.window)]
      ((w.reapDerivations a.source).reapDerivations b.source) := by
    refine ⟨(ha.sheds hb).inv, (ha.sheds hb).drops, ?_⟩
    simp only [mem_cons, not_mem_nil, or_false, forall_eq_or_imp, forall_eq]
    exact ⟨hca.alike hb.alike, hcb⟩
  split at h
  next e w3 he =>
    cases h
    rcases enterFlight_cases he with ⟨_, rfl⟩ | ⟨hok, _⟩
    · exact hab.nil
    · simp at hok
  next w3 he =>
  rcases enterFlight_cases he with ⟨⟨_, hok⟩, _⟩ | ⟨_, ⟨r, hr, hn⟩, rfl⟩
  · simp at hok
  have henter := hab.modify (local_enter key (some a.geometry)) fun r' hr' =>
    Option.some.inj (hr.symm.trans hr') ▸ hn
  split at h
  next e w4 he =>
    cases h
    rcases enterFlight_cases he with ⟨_, rfl⟩ | ⟨hok, _⟩
    · -- the end that entered is not finished, for it is in flight
      have hleave := henter.nil.modify (local_leave key) (i := a.source) fun r' hr' => by
        obtain ⟨r0, _, rfl⟩ := modify_eq_some hr'
        simp [Authorization.finished]
      exact hleave.sheds (settleIf_sheds hleave.inv a.source _)
    · simp at hok
  next w4 he =>
    cases h
    rcases enterFlight_cases he with ⟨⟨_, hok⟩, _⟩ | ⟨_, ⟨r', hr', hn'⟩, rfl⟩
    · simp at hok
    · exact henter.modify (local_enter key (some b.geometry)) fun r'' hr'' =>
        Option.some.inj (hr'.symm.trans hr'') ▸ hn'

/-! ## Runs -/

/-- One step keeps the invariant, drops spent slots only, and lets nothing in that meets a slot it
leaves. -/
theorem step_admits {w w' : World}
    {admitted : List (RecordId × Window)} (hi : Inv window w) (h : Step window w admitted w') :
    Admits window w admitted w' := by
  cases h with
  | allocate _ pages pos bound =>
    refine ⟨hi.grows (?_ : Grows w none (fun _ => []) _) nofun (fun _ => Nat.zero_le 1) nofun,
      .of_same fun hr hr' => ?_, by simp⟩
    · refine ⟨rfl, le_rfl, fun hr' => ?_⟩
      dsimp only at hr'
      split at hr'
      · next hj =>
        cases hr'
        exact .inl ⟨hj, rfl, rfl⟩
      · next hj => exact .inr ⟨hj, _, hr', rfl, rfl, (append_nil _).symm⟩
    exact Option.some.inj (hr'.symm.trans ((if_neg (hi.known hr).ne).trans hr))
  | derive h => exact derivePole_admits hi h
  | accord hr h => exact accord_admits hi hr h
  | openPole hr h => exact openPole_admits hi hr h
  | acquire h => exact acquire_admits hi h
  | attach h => exact attachCommit_admits hi h
  | transfer h => exact transferAdmit_admits hi h
  | enterPublish h =>
    rcases enterFlight_cases h with ⟨_, rfl⟩ | ⟨_, _, rfl⟩
    · exact .refl hi
    · exact admits_modify hi (local_enter _ _)
  | leavePublish _ i key => exact admits_release hi (local_leave key)
  | releaseBinding => exact admits_release hi fun _ => ⟨rfl, rfl, rfl⟩
  | releaseRetention _ i id =>
    have hm := admits_modify hi (i := i) (f := fun r => { r with
      retentions := r.retentions.filter (·.1.id ≠ id) }) fun _ => ⟨rfl, rfl, rfl⟩
    exact hm.sheds (settle_sheds hm.inv i)
  | releaseGrant => exact admits_release hi fun _ => ⟨rfl, rfl, rfl⟩
  | reap _ i => exact admits_reap hi i
  | settle _ i => exact (Admits.refl hi).sheds (settle_sheds hi i)
  | retarget _ i forgotten parent h =>
    refine ⟨hi.moved rfl le_rfl fun hr' => ?_, drops_modify fun r x hx => ?_, by simp⟩
    · obtain ⟨r, hr, rfl⟩ := modify_eq_some hr'
      split
      · next hj =>
        subst hj
        refine ⟨r, _, _, hr, rfl, rfl, .refl _, rfl, fun x => ?_⟩
        split
        · next hx => exact ⟨rfl, rfl, hx ▸ h r hr⟩
        · exact ⟨rfl, rfl, .refl _⟩
      · exact ⟨r, _, id, hr, rfl, rfl, .refl _, (map_id _).symm,
          fun _ => ⟨rfl, rfl, .refl _⟩⟩
    refine ⟨_, mem_map.2 ⟨x, hx, rfl⟩, ?_⟩
    split <;> exact ⟨rfl, rfl⟩
  | drop _ i h =>
    have hold {j r'} (hr' : (if j = i then none else w.records j) = some r') :
        w.records j = some r' := (Option.ite_none_left_eq_some.1 hr').2
    exact ⟨hi.alike ⟨rfl, le_rfl, fun hr' => ⟨_, hold hr', rfl, rfl, .refl _⟩⟩,
      .of_same fun hr hr' => Option.some.inj ((hold hr').symm.trans hr), by simp⟩
  | _ => exact admits_modify hi fun _ => ⟨rfl, rfl, rfl⟩

/-- Sections one after the other. -/
def Runs (window : Token → Option Window) : World → World → Prop :=
  ReflTransGen fun w w' => ∃ admitted, Step window w admitted w'

/-- Every run keeps the invariant. -/
theorem slots_inv {w : World} (hrun : Runs window {} w) : Inv window w := by
  induction hrun with
  | refl =>
    constructor <;> intros <;> simp_all
  | tail _ hstep ih =>
    obtain ⟨_, hstep⟩ := hstep
    exact (step_admits ih hstep).inv

/-- In every world that sections can reach, the slots of a source are apart from each other, not
empty, proper parts of the source and inside the grant they were derived under.  And every step from
it lets nothing in that meets a slot, and drops a slot only when the record split off is
finished. -/
theorem slots_exclusive (window : Token → Option Window) (w : World) (hrun : Runs window {} w) :
    (∀ i r, w.records i = some r →
      r.derivations.Pairwise (fun x y => Apart x.geometry.window y.geometry.window) ∧
      ∀ x ∈ r.derivations, 0 < x.geometry.window.count ∧ x.geometry.window.Within r.whole ∧
        x.geometry.window ≠ r.whole ∧
        x.geometry.window.Within ((window x.token).getD r.whole)) ∧
    ∀ admitted w', Step window w admitted w' →
      (∀ i request r x, (i, request) ∈ admitted → w'.records i = some r → x ∈ r.derivations →
        Apart x.geometry.window request) ∧
      ∀ i r r' x, w.records i = some r → w'.records i = some r' → x ∈ r.derivations →
        (∃ y ∈ r'.derivations, y.geometry = x.geometry ∧ y.child = x.child) ∨
          ∃ c, w'.records x.child = some c ∧ c.finished = true := by
  have hi := slots_inv hrun
  refine ⟨fun i r hr => ⟨hi.apart hr, fun x hx => ?_⟩, fun admitted w' hstep => ?_⟩
  · obtain ⟨hin, hne⟩ := hi.inside hr hx
    exact ⟨x.geometry.window.pos, hin, hne, hi.branch hr hx⟩
  · have ha := step_admits hi hstep
    exact ⟨fun i request r x hm hr hx => ha.clear _ hm r x hr hx, ha.drops⟩

/-- A source of eight pages that its Pole took over. -/
def owned : World :=
  World.modify
    { records := fun j =>
        if j = 0 then some { pages := 8, pos := by decide, bound := by decide } else none
      nextRecord := 1 }
    0 fun r => { r with
      phase := .root 1, pole := .live, authorities := [⟨1, privatePermission⟩] }

/-- Three of its pages, split off. -/
def part : Except PieFail Token × World :=
  derivePole (fun _ => none) {} owned 0 1 (some privatePermission) true false true
    ⟨2, 3, by decide⟩ 2

/-- After the part is split off, no step lets anything in that meets it. -/
theorem slots_exclusive_part :
    (∃ r x, part.2.records 0 = some r ∧ x ∈ r.derivations) ∧
    ∀ admitted w', Step (fun _ => none) part.2 admitted w' →
      ∀ i request r x, (i, request) ∈ admitted → w'.records i = some r → x ∈ r.derivations →
        Apart x.geometry.window request := by
  refine ⟨⟨_, _, rfl, mem_singleton.2 rfl⟩, fun admitted w' hstep => ?_⟩
  have howned : Runs (fun _ => none) {} owned :=
    (ReflTransGen.single ⟨[], Step.allocate {} 8 (by decide) (by decide)⟩).tail
      ⟨[], Step.create _ 0 1 privatePermission fun r hr => by
        cases hr
        exact ⟨rfl, rfl⟩⟩
  have hpart : Step (fun _ => none) owned [] part.2 := Step.derive (rfl : part = (part.1, part.2))
  exact ((slots_exclusive _ part.2 (howned.tail ⟨[], hpart⟩)).2 admitted w' hstep).1

end Sqware.Source
