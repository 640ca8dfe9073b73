import Sqware.Identity.Attenuate
import Sqware.Lib.Lists

/-!
# Installations

An installation is named by its endpoint, its caller and a number.  Its record says what became of
it, the binding it made carries its name, and the largest number of each origin is kept, also when
the records of what is over are dropped.
-/

namespace Sqware.Identity

open List Option Keyed IdentityBook Lists

/-- Endpoint, caller and number. -/
abbrev InstallKey : Type := PieToken × TaskId × Nat

def InstallRecord.key (r : InstallRecord) : InstallKey := (r.endpoint, r.caller, r.id)

def InstallRecord.source (r : InstallRecord) : PieToken × TaskId := (r.endpoint, r.caller)

def InstallOrigin.source (o : InstallOrigin) : PieToken × TaskId := (o.endpoint, o.caller)

namespace IdentityBook

/-- The record of an installation. -/
def recorded (book : IdentityBook) (key : InstallKey) : Option InstallRecord :=
  Keyed.get InstallRecord.key book.installations key

/-- The largest number of an origin. -/
def high (book : IdentityBook) (source : PieToken × TaskId) : Option Nat :=
  (Keyed.get InstallOrigin.source book.installOrigins source).map (·.high)

/-- The installation that made the binding of a task. -/
def tag (book : IdentityBook) (task : TaskId) : Option (Option InstallKey) :=
  (Keyed.get BindingRow.task book.bindings task).map (·.install)

/-- The tasks with the tags of their bindings. -/
abbrev rows (book : IdentityBook) : List (TaskId × Option InstallKey) :=
  book.bindings.map fun b => (b.task, b.install)

abbrev tasks (book : IdentityBook) : List TaskId := book.bindings.map BindingRow.task

abbrev keys (book : IdentityBook) : List InstallKey := book.installations.map InstallRecord.key

/-- The caller is the installer, and neither the endpoint nor the number is empty. -/
abbrev Allows (book : IdentityBook) (key : InstallKey) : Prop :=
  key.2.1 = book.installer ∧ key.1 ≠ 0 ∧ key.2.2 ≠ 0

/-- The largest number of the origin is the key's or beyond it. -/
def Spent (book : IdentityBook) (key : InstallKey) : Prop :=
  ∃ n, book.high (key.1, key.2.1) = some n ∧ key.2.2 ≤ n

/-- The largest number of the origin is beyond the key's. -/
def Passed (book : IdentityBook) (key : InstallKey) : Prop :=
  ∃ n, book.high (key.1, key.2.1) = some n ∧ key.2.2 < n

variable {book book' : IdentityBook} {key : InstallKey} {task : TaskId}

theorem resolve_isSome : (book.resolve task).isSome = (book.tag task).isSome := by
  unfold resolve tag
  cases Keyed.get BindingRow.task book.bindings task <;> rfl

theorem get_of_resolve (h : ¬ (book.resolve task).isSome = true) :
    Keyed.get BindingRow.task book.bindings task = none := by
  unfold resolve at h
  simpa using h

/-! ## What each call does to the tags -/

/-- The same tags, records and numbers. -/
structure Alike (book book' : IdentityBook) : Prop where
  rows : book'.rows = book.rows
  installations : book'.installations = book.installations
  origins : book'.installOrigins = book.installOrigins
  installer : book'.installer = book.installer

theorem Alike.refl (book : IdentityBook) : Alike book book := ⟨rfl, rfl, rfl, rfl⟩

theorem tasks_congr (h : book'.rows = book.rows) : book'.tasks = book.tasks := by
  have := congrArg (List.map Prod.fst) h
  rwa [List.map_map, List.map_map] at this

theorem tag_eq_rows (book : IdentityBook) (t : TaskId) :
    book.tag t = (Keyed.get Prod.fst book.rows t).map Prod.snd := by
  unfold tag rows Keyed.get
  rw [find?_map, Option.map_map]
  rfl

theorem tag_congr (h : book'.rows = book.rows) : book'.tag = book.tag :=
  funext fun t => by rw [tag_eq_rows, h, tag_eq_rows]

theorem alike_child (p : PrincipalId) : Alike book (book.child p) := ⟨rfl, rfl, rfl, rfl⟩

variable (room : Room) (sender : TaskId)

theorem bind_effect (task : TaskId) (i : Install) :
    (∃ f book1, book.bind room sender task i = (.error f, book1) ∧ Alike book book1) ∨
    ∃ book1 b, Alike book book1 ∧ book.bind room sender task i = (.ok (), book1.place task b) := by
  have h := @does_bind book room sender task i
  rw [Called, call] at h
  generalize book.bind room sender task i = r at h
  obtain ⟨f | u, book'⟩ := r
  · change Does book sender (.bind task i) (.error f) book' at h
    refine .inl ⟨f, book', rfl, ?_⟩
    cases h <;> exact ⟨rfl, rfl, rfl, rfl⟩
  cases h with
  | bound => exact .inr ⟨book, _, .refl book, rfl⟩
  | adopted => exact .inr ⟨_, _, alike_child _, rfl⟩
  | selected hc => cases hc

variable (b : Binding)

theorem replace_task (x : BindingRow) (hx : x.task = task) :
    BindingRow.task { x with binding := b, install := none } = task := hx

theorem tag_place (t : TaskId) :
    (book.place task b).tag t = if t = task then some none else book.tag t := by
  unfold place tag
  split
  · next hs =>
    obtain ⟨r, hr⟩ := isSome_iff_exists.1 hs
    obtain ⟨row, hrow, -⟩ := map_eq_some_iff.1 hr
    rw [get_update (replace_task b), hrow]
    split <;> rfl
  · next hs =>
    rw [get_append_fresh (x := (⟨task, b, none⟩ : BindingRow)) (get_of_resolve hs)]
    split <;> rfl

theorem nodup_place (h : book.tasks.Nodup) (b : Binding) :
    (book.place task b).tasks.Nodup := by
  unfold place tasks
  split
  · rw [map_update (replace_task b)]
    exact h
  · next hs => exact nodup_append h (x := (⟨task, b, none⟩ : BindingRow)) (get_of_resolve hs)

theorem tag_filter (h : book.tasks.Nodup) (p : BindingRow → Bool)
    (t : TaskId) : tag { book with bindings := book.bindings.filter p } t =
      ((Keyed.get BindingRow.task book.bindings t).filter p).map (·.install) := by
  unfold tag
  rw [get_filter h]

/-! ## What a request about an installation does -/

/-- A record that is new. -/
def opened (key : InstallKey) (action : InstallAction) : InstallRecord :=
  ⟨key.1, key.2.1, key.2.2, action.spec,
    match action with
    | .cancel => .cancelled
    | .retire => .retired
    | _ => .pending, none⟩

/-- The book in which a new record stands at the end; what is over of its origin may be gone. -/
structure Recorded (book : IdentityBook) (row : InstallRecord) (book' : IdentityBook) : Prop where
  bindings : book'.bindings = book.bindings
  installer : book'.installer = book.installer
  records : ∃ kept, book'.installations = kept ++ [row] ∧ kept.Sublist book.installations ∧
    ∀ r ∈ book.installations, r ∉ kept → r.source = row.source ∧ r.state ≠ .installed
  high : ∀ source, book'.high source =
    if source = row.source then some row.id else book.high source

theorem recordInstall_spec (row : InstallRecord) {origin : Option Nat}
    (ho : origin = book.installOrigins.findIdx? fun o =>
      o.endpoint = row.endpoint ∧ o.caller = row.caller) :
    Recorded book row (book.recordInstall row origin) := by
  have hp : (fun o : InstallOrigin => decide (o.endpoint = row.endpoint ∧ o.caller = row.caller)) =
      fun o => decide (o.source = row.source) := by
    funext o
    simp [InstallOrigin.source, InstallRecord.source]
  rw [hp] at ho
  cases origin with
  | none =>
    have hnone : Keyed.get InstallOrigin.source book.installOrigins row.source = none :=
      get_eq_none_iff.2 fun o ho' => by
        simpa using findIdx?_eq_none_iff.1 ho.symm o ho'
    refine ⟨rfl, rfl, ⟨_, rfl, .refl _, fun r hr hn => absurd hr hn⟩, fun source => ?_⟩
    refine (congrArg _ (get_append_fresh (x := (⟨row.endpoint, row.caller, row.id⟩ : InstallOrigin))
      hnone source)).trans ?_
    change Option.map _ (if source = row.source then _ else _) = _
    split <;> rfl
  | some i =>
    obtain ⟨l1, o, l2, hl, rfl, hos, hno⟩ := exists_of_findIdx? ho.symm
    have hos : o.source = row.source := by simpa using hos
    refine ⟨rfl, rfl, ⟨_, rfl, filter_sublist, fun r hr hn => ?_⟩, fun source => ?_⟩
    · rw [mem_filter] at hn
      simp only [hr, true_and, decide_eq_true_eq, not_or, not_not] at hn
      obtain ⟨he, hc, hs, -⟩ := hn
      exact ⟨by unfold InstallRecord.source; rw [he, hc], hs⟩
    unfold high recordInstall
    dsimp only
    rw [hl, modify_append_cons]
    simp only [get_append, get_cons]
    have hsource : InstallOrigin.source { o with high := row.id } = row.source := hos
    have hl1 : Keyed.get InstallOrigin.source l1 row.source = none :=
      get_eq_none_iff.2 fun y hy => by simpa using hno y hy
    rw [hsource, hos]
    by_cases hsr : source = row.source
    · subst hsr
      simp [hl1]
    · rw [if_neg (Ne.symm hsr), if_neg (Ne.symm hsr), if_neg hsr]

/-- The ways a request can go. -/
inductive Takes (book : IdentityBook) (room : Room) (key : InstallKey) (action : InstallAction) :
    Except Fail InstallStatus × IdentityBook → Prop
  | denied (h : ¬ book.Allows key) : Takes book room key action (.error .denied, book)
  | again {l₁ l₂ : List InstallRecord} {row : InstallRecord}
      (hown : book.Allows key)
      (hl : book.installations = l₁ ++ row :: l₂) (hrow : book.recorded key = some row) :
      Takes book room key action (book.reinstall row l₁.length action)
  | late {r : Except Fail InstallStatus} (hnone : book.recorded key = none)
      (hle : book.Spent key)
      (hr : ((∃ spec, action = .apply spec) ∧ r = .error .changed) ∨
        ((∀ spec, action ≠ .apply spec) ∧ r = .ok ⟨.closed, none, none⟩)) :
      Takes book room key action (r, book)
  | unseen (hnone : book.recorded key = none) (hact : action = .inspect) :
      Takes book room key action (.ok ⟨.unseen, none, none⟩, book)
  | full (hnone : book.recorded key = none) (hfresh : ¬ book.Spent key) :
      Takes book room key action (.error .full, book)
  | fresh {book₁ : IdentityBook} (hown : book.Allows key)
      (hnone : book.recorded key = none) (hfresh : ¬ book.Spent key) (hact : action ≠ .inspect)
      (hrec : Recorded book (opened key action) book₁) :
      Takes book room key action (book₁.settleInstall room (opened key action))

theorem installation_takes (key : InstallKey) (action : InstallAction) :
    Takes book room key action (book.installation room key.2.1 key.1 key.2.2 action) := by
  obtain ⟨endpoint, sender, id⟩ := key
  have hp : (fun r : InstallRecord =>
      decide (r.endpoint = endpoint ∧ r.caller = sender ∧ r.id = id)) =
      fun r => decide (r.key = (endpoint, sender, id)) := by
    funext r
    simp [InstallRecord.key]
  have hq : (fun o : InstallOrigin => decide (o.endpoint = endpoint ∧ o.caller = sender)) =
      fun o => decide (o.source = (endpoint, sender)) := by
    funext o
    simp [InstallOrigin.source]
  unfold installation
  split
  · next h => exact .denied fun ⟨h1, h2, h3⟩ => h.elim (· h1) fun h => h.elim h2 h3
  next hown =>
  simp only [not_or, not_not] at hown
  rw [hp]
  split
  · next index hi =>
    obtain ⟨l1, row, l2, hl, rfl, hkey, hno⟩ := exists_of_findIdx? hi
    have hget : book.installations[l1.length]? = some row := by
      rw [hl]
      simp
    rw [hget]
    refine .again hown hl ?_
    unfold recorded
    rw [hl]
    exact find?_append_cons hkey hno
  · next hnone =>
    have hnone : book.recorded (endpoint, sender, id) = none :=
      get_eq_none_iff.2 fun r hr => by simpa using findIdx?_eq_none_iff.1 hnone r hr
    dsimp only
    have hfound : ((book.installOrigins.findIdx? fun o =>
        decide (o.endpoint = endpoint ∧ o.caller = sender)).bind (book.installOrigins[·]?)) =
        Keyed.get InstallOrigin.source book.installOrigins (endpoint, sender) := by
      rw [hq, ← find?_eq_bind_findIdx?_getElem?]
      rfl
    rw [hfound]
    split
    · next hle =>
      obtain ⟨o, ho, hle⟩ := (Option.any_eq_true _ _).1 hle
      have hle' : book.Spent (endpoint, sender, id) :=
        ⟨o.high, by rw [high, ho]; rfl, by simpa using hle⟩
      cases action with
      | apply spec => exact .late hnone hle' (.inl ⟨⟨spec, rfl⟩, rfl⟩)
      | _ => exact .late hnone hle' (.inr ⟨by simp, rfl⟩)
    next hle =>
    split
    · next hact => exact .unseen hnone hact
    next hact =>
    have hfresh : ¬ book.Spent (endpoint, sender, id) := by
      rintro ⟨n, hn, hid⟩
      obtain ⟨o, ho, rfl⟩ := map_eq_some_iff.1 hn
      rw [ho] at hle
      exact hle (by simpa using hid)
    unfold openInstall
    split
    · exact .full hnone hfresh
    split
    · exact .full hnone hfresh
    · split
      · exact .full hnone hfresh
      · exact .fresh hown hnone hfresh hact (recordInstall_spec _ rfl)

variable {row : InstallRecord} {kept : List InstallRecord}

theorem setInstall_last (hk : book.installations = kept ++ [row]) (row' : InstallRecord) :
    (book.setInstall (book.installations.length - 1) row').installations = kept ++ [row'] := by
  unfold setInstall
  rw [hk, length_append, length_singleton, Nat.add_sub_cancel]
  exact set_append_cons kept row [] row'

/-- The binding of the task is now the installation's. -/
structure Tagged (book : IdentityBook) (task : TaskId) (key : InstallKey) (book' : IdentityBook) :
    Prop where
  nodup : book.tasks.Nodup → book'.tasks.Nodup
  tag : ∀ t, book'.tag t = if t = task then some (some key) else book.tag t

theorem tagged_place (key : InstallKey) :
    Tagged book task key { book.place task b with
      bindings := Keyed.update BindingRow.task task (fun row => { row with install := some key })
        (book.place task b).bindings } := by
  have hf : ∀ x : BindingRow, x.task = task →
      BindingRow.task { x with install := some key } = task := fun x hx => hx
  refine ⟨fun h => ?_, fun t => ?_⟩
  · rw [tasks, map_update hf]
    exact nodup_place h b
  have hplace := @tag_place book task b t
  unfold tag at hplace ⊢
  rw [get_update hf]
  by_cases ht : t = task
  · subst ht
    rw [if_pos rfl] at hplace ⊢
    obtain ⟨row, hrow, -⟩ := map_eq_some_iff.1 hplace
    rw [hrow, if_pos rfl]
    rfl
  · rw [if_neg ht] at hplace ⊢
    rw [if_neg ht]
    exact hplace

/-- The answer tells the record's state; the record stands at the end of the list. -/
theorem settle_cases (hk : book.installations = kept ++ [row]) :
    ∃ row' book', book.settleInstall room row = (.ok (book'.installStatus row'), book') ∧
      row'.key = row.key ∧ row'.spec = row.spec ∧ book'.installations = kept ++ [row'] ∧
      book'.installOrigins = book.installOrigins ∧ book'.installer = book.installer ∧
      ((row.spec = none ∧ row' = row ∧ book' = book) ∨
      (∃ spec, row.spec = some spec ∧ row'.state = .failed ∧
        book'.rows = book.rows) ∨
      ∃ spec, row.spec = some spec ∧ row'.state = .installed ∧
        (∀ b ∈ book.bindings, b.task = spec.task → b.install = none) ∧
        Tagged book spec.task row.key book') := by
  unfold settleInstall
  cases hs : row.spec with
  | none => exact ⟨row, book, rfl, rfl, hs, hk, rfl, rfl, .inl ⟨rfl, rfl, rfl⟩⟩
  | some spec =>
    unfold applyInstall
    dsimp only
    split
    · exact ⟨_, _, rfl, rfl, hs, setInstall_last hk _, rfl, rfl, .inr (.inl ⟨spec, rfl, rfl, rfl⟩)⟩
    next hfree =>
    have hfree : ∀ b ∈ book.bindings, b.task = spec.task → b.install = none := by
      intro b hb ht
      by_contra hne
      refine hfree (List.any_eq_true.2 ⟨b, hb, ?_⟩)
      simp only [ht, true_and, decide_eq_true_eq]
      exact isSome_iff_ne_none.2 hne
    have hlast : ∀ book1, Alike book book1 → ∀ row',
        (book1.setInstall (book.installations.length - 1) row').installations = kept ++ [row'] := by
      intro book1 ha row'
      rw [← ha.installations]
      exact setInstall_last (ha.installations.trans hk) row'
    rcases @bind_effect book room row.caller spec.task spec.install with
      ⟨f, book1, hf, ha⟩ | ⟨book1, b, ha, hb⟩
    · rw [hf]
      exact ⟨_, _, rfl, rfl, hs, hlast _ ha _, ha.origins, ha.installer,
        .inr (.inl ⟨spec, rfl, rfl, ha.rows⟩)⟩
    rw [hb]
    have ht := @tagged_place book1 spec.task b row.key
    have hplaced : ∀ row', (setInstall { book1.place spec.task b with
        bindings := Keyed.update BindingRow.task spec.task
          (fun row1 => { row1 with install := some row.key }) (book1.place spec.task b).bindings }
        (book.installations.length - 1) row').installations = kept ++ [row'] := fun row' =>
      hlast book1 ha row'
    refine ⟨_, _, rfl, rfl, hs, hplaced _, ha.origins, ha.installer,
      .inr (.inr ⟨spec, rfl, rfl, hfree, fun hn => ?_, fun t => ?_⟩)⟩
    · exact ht.nodup (tasks_congr ha.rows ▸ hn)
    · rw [← tag_congr ha.rows]
      exact ht.tag t

theorem reinstall_closes {l1 l2 : List InstallRecord} {action : InstallAction}
    (hl : book.installations = l1 ++ row :: l2) (hact : action = .cancel ∨ action = .retire)
    (hn : book.tasks.Nodup) :
    ∃ row' book' status, book.reinstall row l1.length action = (.ok status, book') ∧
      row'.key = row.key ∧ row'.spec = row.spec ∧ book'.installations = l1 ++ row' :: l2 ∧
      book'.installOrigins = book.installOrigins ∧
      book'.installer = book.installer ∧ book'.bindings.Sublist book.bindings ∧
      ∀ t, book'.tag t = if (∃ spec, row.spec = some spec ∧ spec.task = t) ∧
        book.tag t = some (some row.key) then none else book.tag t := by
  have hspec : ¬ (action.spec.isSome = true ∧ row.spec ≠ action.spec) := by
    rcases hact with rfl | rfl <;> exact fun h => nomatch h.1
  unfold reinstall
  rw [if_neg hspec, if_pos hact]
  refine ⟨{ row with state := if action = .cancel then .cancelled else .retired, failure := none },
    _, _, rfl, rfl, rfl, ?_, rfl, rfl, ?_, fun t => ?_⟩
  · dsimp only
    rw [hl]
    exact set_append_cons l1 row l2 _
  · dsimp only
    split
    · exact .refl _
    · exact filter_sublist
  cases hs : row.spec with
  | none => exact (if_neg fun h => nomatch h.1.choose_spec.1).symm
  | some spec =>
    refine (tag_filter hn _ t).trans ?_
    cases hg : Keyed.get BindingRow.task book.bindings t with
    | none => simp [tag, hg]
    | some b =>
      have hbt : b.task = t := key_of_get hg
      have htag : book.tag t = some b.install := congrArg _ hg
      have hmine : (∃ spec', some spec = some spec' ∧ spec'.task = t) ∧
          some b.install = some (some row.key) ↔ b.task = spec.task ∧ b.install = some row.key := by
        simp [hbt, eq_comm]
      rw [htag, if_congr hmine rfl rfl, filter_some]
      by_cases hb : b.task = spec.task ∧ b.install = some row.key
      · rw [if_pos hb, if_neg (by simpa [InstallRecord.key] using hb)]
        rfl
      · rw [if_neg hb, if_pos (by exact decide_eq_true (not_and_or.1 hb))]
        rfl

theorem recorded_replace {l1 l2 : List InstallRecord} {row' : InstallRecord}
    (hl : book.installations = l1 ++ row :: l2) (hl' : book'.installations = l1 ++ row' :: l2)
    (hkey : row'.key = row.key) (hn : book.keys.Nodup) :
    book'.keys.Nodup ∧
    ∀ k, book'.recorded k = if k = row.key then some row' else book.recorded k := by
  have hkeys : book'.keys = book.keys := by
    rw [keys, keys, hl, hl']
    simp [hkey]
  rw [hkeys]
  refine ⟨hn, fun k => ?_⟩
  unfold recorded
  by_cases hk : k = row.key
  · rw [if_pos hk, hk, ← hkey]
    exact Keyed.get_of_mem (hkeys.symm ▸ hn : book'.keys.Nodup) (by rw [hl']; simp)
  · rw [if_neg hk, hl, hl', get_append, get_append, get_cons, get_cons,
      hkey, if_neg (Ne.symm hk), if_neg (Ne.symm hk)]

/-- A new record; of the others those that are over may be gone. -/
structure Extends (book : IdentityBook) (row : InstallRecord) (book' : IdentityBook) : Prop where
  nodup : book'.keys.Nodup
  new : book'.recorded row.key = some row
  old : ∀ k r, k ≠ row.key → book'.recorded k = some r → book.recorded k = some r
  lost : ∀ k r, book.recorded k = some r → book'.recorded k = some r ∨
    (k.1, k.2.1) = row.source ∧ r.state ≠ .installed

theorem recorded_concat (hl : book'.installations = kept ++ [row])
    (hsub : kept.Sublist book.installations)
    (hlost : ∀ r ∈ book.installations, r ∉ kept → r.source = row.source ∧ r.state ≠ .installed)
    (hnone : book.recorded row.key = none) (hn : book.keys.Nodup) :
    Extends book row book' := by
  have hkept : (kept.map InstallRecord.key).Nodup := hn.sublist (hsub.map _)
  have hfresh : Keyed.get InstallRecord.key kept row.key = none :=
    get_eq_none_iff.2 fun r hr => get_eq_none_iff.1 hnone r (hsub.subset hr)
  have hget : ∀ k, book'.recorded k =
      if k = row.key then some row else Keyed.get InstallRecord.key kept k := fun k => by
    unfold recorded
    rw [hl]
    exact get_append_fresh hfresh k
  refine ⟨?_, ?_, fun k r hk hr => ?_, fun k r hr => ?_⟩
  · rw [keys, hl]
    exact nodup_append hkept hfresh
  · rw [hget, if_pos rfl]
  · rw [hget, if_neg hk] at hr
    have := get_of_mem hn (hsub.subset (mem_of_get hr))
    rwa [key_of_get hr] at this
  have hk : k ≠ row.key := by
    rintro rfl
    cases hnone.symm.trans hr
  have hrk : r.key = k := key_of_get hr
  by_cases hmem : r ∈ kept
  · refine .inl ?_
    rw [hget, if_neg hk, ← hrk]
    exact get_of_mem hkept hmem
  obtain ⟨hsource, hstate⟩ := hlost r (mem_of_get hr) hmem
  exact .inr ⟨by rw [← hrk]; exact hsource, hstate⟩

end IdentityBook

/-! ## The book against the history -/

/-- A binding is put in place for the task: by a plain call, or by the first request of an
installation. -/
def Entry.Places (e : Entry) (task : TaskId) : Option InstallKey → Prop
  | none => (∃ i, e.call = .bind task i) ∧ ∃ a, e.answer = .ok a
  | some key => e.sender = key.2.1 ∧ e.book.recorded key = none ∧
    ∃ spec status, e.call = .installation key.1 key.2.2 (.apply spec) ∧ spec.task = task ∧
      e.answer = .ok (.status status) ∧ status.state = .installed

/-- A request about this number, or a larger one of the same origin, is taken. -/
def Entry.Spends (e : Entry) (key : InstallKey) : Prop :=
  e.sender = key.2.1 ∧ ∃ id action a, e.call = .installation key.1 id action ∧
    action ≠ .inspect ∧ key.2.2 ≤ id ∧ e.answer = .ok a

/-- The installation is asked for, and the request is taken. -/
def Entry.Applies (e : Entry) (key : InstallKey) (spec : InstallSpec) : Prop :=
  e.sender = key.2.1 ∧ e.call = .installation key.1 key.2.2 (.apply spec) ∧ ∃ a, e.answer = .ok a

/-- The installation is cancelled or retired. -/
def Entry.Closes (e : Entry) (key : InstallKey) : Prop :=
  e.sender = key.2.1 ∧ ∃ action a, (action = .cancel ∨ action = .retire) ∧
    e.call = .installation key.1 key.2.2 action ∧ e.answer = .ok a

/-- The binding of the task was put in place by the installation, and by nothing since. -/
def Owned (history : List Entry) (task : TaskId) (key : InstallKey) : Prop :=
  Lists.Since (·.Places task (some key)) (fun e => ∃ key', e.Places task key') history

/-- The installation was carried out, and not closed since. -/
def Stands (history : List Entry) (key : InstallKey) : Prop :=
  Lists.Since (fun e => ∃ task, e.Places task (some key)) (·.Closes key) history

variable {key : InstallKey} {e : Entry} {task : TaskId}

/-- What the records and largest numbers still say of the history. -/
structure Records (history : List Entry) (book : IdentityBook) : Prop where
  keys : book.keys.Nodup
  own : ∀ key row, book.recorded key = some row → book.Allows key
  high : ∀ key row, book.recorded key = some row → book.Spent key
  spent : ∀ e ∈ history, ∀ key, e.Spends key → book.Spent key
  applied : ∀ e ∈ history, ∀ key spec, e.Applies key spec →
    book.Allows key ∧ (∀ row, book.recorded key = some row → row.spec = some spec) ∧
    (book.recorded key = none → book.Passed key)
  stands : ∀ key, Stands history key → ∃ row, book.recorded key = some row ∧ row.state = .installed

/-- What the bindings still say of the history. -/
structure Tags (history : List Entry) (book : IdentityBook) : Prop where
  tasks : book.tasks.Nodup
  tagged : ∀ task key, book.tag task = some (some key) → ∃ row, book.recorded key = some row ∧
    row.state = .installed ∧ ∃ spec, row.spec = some spec ∧ spec.task = task
  owned : ∀ task key, book.tag task = some (some key) ↔
    (book.tag task).isSome = true ∧ Owned history task key

section

variable {history : List Entry} {book book' : IdentityBook} {e : Entry}

theorem Entry.Applies.spends {spec : InstallSpec} (h : e.Applies key spec) : e.Spends key := by
  obtain ⟨hsender, hcall, a, hans⟩ := h
  exact ⟨hsender, key.2.2, .apply spec, a, hcall, nofun, Nat.le_refl _, hans⟩

/-- One entry more.  A record keeps its specification; one that goes is below the largest number,
one that comes was above it. -/
theorem Records.step (h : Records history book)
    (hkeys : book'.keys.Nodup)
    (hinst : book'.installer = book.installer)
    (hhigh : ∀ source n, book.high source = some n → ∃ m, book'.high source = some m ∧ n ≤ m)
    (hnew : ∀ k r', book'.recorded k = some r' →
      (∃ r, book.recorded k = some r ∧ r'.spec = r.spec) ∨
      book.Allows k ∧ book'.Spent k ∧ ¬ book.Spent k)
    (hlost : ∀ k r, book.recorded k = some r → book'.recorded k = none → book'.Passed k)
    (hs : ∀ k, e.Spends k → book'.Spent k)
    (ha : ∀ k spec, e.Applies k spec → ∃ r, book'.recorded k = some r ∧ r.spec = some spec)
    (hst : ∀ k r, book.recorded k = some r → r.state = .installed → ¬ e.Closes k →
      ∃ r', book'.recorded k = some r' ∧ r'.state = .installed)
    (hp : ∀ task k, e.Places task (some k) →
      ∃ r, book'.recorded k = some r ∧ r.state = .installed) : Records (history ++ [e]) book' := by
  have hown : ∀ k r, book'.recorded k = some r → book'.Allows k := by
    intro k r hr
    rw [Allows, hinst]
    rcases hnew k r hr with ⟨r0, hr0, -⟩ | ⟨hown, -⟩
    · exact h.own k r0 hr0
    · exact hown
  have hspent : ∀ k, book.Spent k → book'.Spent k := by
    rintro k ⟨n, hn, hle⟩
    obtain ⟨m, hm, hnm⟩ := hhigh _ n hn
    exact ⟨m, hm, hle.trans hnm⟩
  refine ⟨hkeys, hown, fun k r hr => ?_,
    forall_mem_append.2 ⟨fun e' he' k hk => hspent k (h.spent e' he' k hk),
      forall_mem_singleton.2 hs⟩,
    forall_mem_append.2 ⟨fun e' he' k spec hk => ?_, forall_mem_singleton.2 fun k spec hk => ?_⟩,
    fun k hstands => ?_⟩
  · rcases hnew k r hr with ⟨r0, hr0, -⟩ | ⟨-, hsp, -⟩
    · exact hspent k (h.high k r0 hr0)
    · exact hsp
  · obtain ⟨h0, h1, h2⟩ := h.applied e' he' k spec hk
    refine ⟨by rwa [Allows, hinst], fun r hr => ?_, fun hnone => ?_⟩
    · rcases hnew k r hr with ⟨r0, hr0, hspec⟩ | ⟨-, -, hno⟩
      · exact hspec.trans (h1 r0 hr0)
      · exact absurd (h.spent e' he' k hk.spends) hno
    cases hr : book.recorded k with
    | some r => exact hlost k r hr hnone
    | none =>
      obtain ⟨n, hn, hlt⟩ := h2 hr
      obtain ⟨m, hm, hnm⟩ := hhigh _ n hn
      exact ⟨m, hm, hlt.trans_le hnm⟩
  · obtain ⟨r, hr, hspec⟩ := ha k spec hk
    refine ⟨hown k r hr, fun r' hr' => ?_, fun hnone => ?_⟩
    · cases hr.symm.trans hr'
      exact hspec
    · cases hr.symm.trans hnone
  · rcases since_concat.1 hstands with ⟨task, hplace⟩ | ⟨hold, hopen⟩
    · exact hp task k hplace
    · obtain ⟨r, hr, hstate⟩ := h.stands k hold
      exact hst k r hr hstate hopen

theorem high_congr (ho : book'.installOrigins = book.installOrigins) : book'.high = book.high := by
  unfold high
  rw [ho]

theorem Records.same (h : Records history book) (hi : book'.installations = book.installations)
    (ho : book'.installOrigins = book.installOrigins) (hinst : book'.installer = book.installer)
    (hs : ∀ key, e.Spends key → book.Spent key)
    (ha : ∀ key spec, e.Applies key spec →
      ∃ row, book.recorded key = some row ∧ row.spec = some spec)
    (hp : ∀ task key, ¬ e.Places task (some key)) : Records (history ++ [e]) book' := by
  have hrec : book'.recorded = book.recorded := by
    unfold recorded
    rw [hi]
  have hhigh := high_congr ho
  refine h.step (by rw [IdentityBook.keys, hi]; exact h.keys) hinst
    (fun source n hn => ⟨n, hhigh ▸ hn, Nat.le_refl n⟩)
    (fun k r hr => .inl ⟨r, hrec ▸ hr, rfl⟩) (fun k r hr hnone => ?_) (fun k hk => ?_)
    (fun k spec hk => hrec ▸ ha k spec hk) (fun k r hr hstate _ => ⟨r, hrec ▸ hr, hstate⟩)
    fun task k hk => absurd hk (hp task k)
  · rw [hrec, hr] at hnone
    cases hnone
  · unfold IdentityBook.Spent
    rw [hhigh]
    exact hs k hk

variable {row : InstallRecord}

theorem Records.closes (h : Records history book) {row' : InstallRecord}
    (hrow : book.recorded key = some row) (hspec : row'.spec = row.spec)
    (hkeys : book'.keys.Nodup)
    (hrec : ∀ k, book'.recorded k = if k = key then some row' else book.recorded k)
    (ho : book'.installOrigins = book.installOrigins) (hinst : book'.installer = book.installer)
    (hs : ∀ k, e.Spends k → (k.1, k.2.1) = (key.1, key.2.1) ∧ k.2.2 ≤ key.2.2)
    (ha : ∀ k spec, ¬ e.Applies k spec) (hp : ∀ task k, ¬ e.Places task (some k))
    (hc : e.Closes key) : Records (history ++ [e]) book' := by
  have hhigh := high_congr ho
  refine h.step hkeys hinst (fun source n hn => ⟨n, hhigh ▸ hn, Nat.le_refl n⟩)
    (fun k r hr => .inl ?_) (fun k r hr hnone => ?_) (fun k hk => ?_)
    (fun k spec hk => absurd hk (ha k spec)) (fun k r hr hstate hopen => ⟨r, ?_, hstate⟩)
    fun task k hk => absurd hk (hp task k)
  · rw [hrec] at hr
    split at hr
    · next hk =>
      cases hr
      exact ⟨row, hk ▸ hrow, hspec⟩
    · exact ⟨r, hr, rfl⟩
  · rw [hrec, hr] at hnone
    split at hnone <;> cases hnone
  · obtain ⟨hsource, hle⟩ := hs k hk
    obtain ⟨n, hn, hkn⟩ := h.high key row hrow
    exact ⟨n, hhigh ▸ hsource ▸ hn, hle.trans hkn⟩
  · have hne : k ≠ key := fun he => hopen (he ▸ hc)
    rw [hrec, if_neg hne]
    exact hr

theorem Records.opens (h : Records history book) (hkey : row.key = key)
    (hown : book.Allows key)
    (hfresh : ¬ book.Spent key) (hext : book.Extends row book')
    (hhigh : ∀ source, book'.high source =
      if source = (key.1, key.2.1) then some key.2.2 else book.high source)
    (hinst : book'.installer = book.installer)
    (hs : ∀ k, e.Spends k → (k.1, k.2.1) = (key.1, key.2.1) ∧ k.2.2 ≤ key.2.2)
    (ha : ∀ k spec, e.Applies k spec → k = key ∧ row.spec = some spec)
    (hp : ∀ task k, e.Places task (some k) → k = key ∧ row.state = .installed) :
    Records (history ++ [e]) book' := by
  subst hkey
  refine h.step hext.nodup hinst (fun source n hn => ?_) (fun k r hr => ?_) (fun k r hr hnone => ?_)
    (fun k hk => ?_) (fun k spec hk => ?_) (fun k r hr hstate _ => ?_) fun task k hk => ?_
  · rw [hhigh]
    split
    · next he => exact ⟨_, rfl, Nat.le_of_not_ge fun hle => hfresh ⟨n, he ▸ hn, hle⟩⟩
    · exact ⟨n, hn, Nat.le_refl n⟩
  · by_cases hk : k = row.key
    · subst hk
      exact .inr ⟨hown, ⟨_, (hhigh _).trans (if_pos rfl), Nat.le_refl _⟩, hfresh⟩
    · exact .inl ⟨r, hext.old k r hk hr, rfl⟩
  · rcases hext.lost k r hr with hkept | ⟨hsame, -⟩
    · cases hkept.symm.trans hnone
    · change (k.1, k.2.1) = (row.key.1, row.key.2.1) at hsame
      obtain ⟨n, hn, hle⟩ := h.high k r hr
      exact ⟨_, (hhigh _).trans (if_pos hsame),
        hle.trans_lt (Nat.lt_of_not_ge fun hle => hfresh ⟨n, hsame ▸ hn, hle⟩)⟩
  · obtain ⟨he, hle⟩ := hs k hk
    exact ⟨_, (hhigh _).trans (if_pos he), hle⟩
  · obtain ⟨rfl, hspec⟩ := ha k spec hk
    exact ⟨row, hext.new, hspec⟩
  · rcases hext.lost k r hr with hkept | ⟨-, hne⟩
    · exact ⟨r, hkept, hstate⟩
    · exact absurd hstate hne
  · obtain ⟨rfl, hstate⟩ := hp task k hk
    exact ⟨row, hext.new, hstate⟩

/-- For each task: the binding is left alone, it is gone, or a new one is in place. -/
theorem Tags.step (h : Tags history book) (htasks : book'.tasks.Nodup)
    (hkeep : ∀ t key row, book'.tag t = some (some key) → book.recorded key = some row →
      row.state = .installed → book'.recorded key = some row)
    (htag : ∀ t, (book'.tag t = book.tag t ∧ ∀ k, ¬ e.Places t k) ∨ book'.tag t = none ∨
      ∃ k, book'.tag t = some k ∧ e.Places t k ∧ (∀ k', e.Places t k' → k' = k) ∧
        ∀ key, k = some key → ∃ row, book'.recorded key = some row ∧ row.state = .installed ∧
          ∃ spec, row.spec = some spec ∧ spec.task = t) : Tags (history ++ [e]) book' := by
  refine ⟨htasks, fun t key ht => ?_, fun t key => ?_⟩
  · rcases htag t with ⟨hsame, -⟩ | hnone | ⟨k, hk, -, -, hrow⟩
    · obtain ⟨row, hrow, hstate, hspec⟩ := h.tagged t key (hsame ▸ ht)
      exact ⟨row, hkeep t key row ht hrow hstate, hstate, hspec⟩
    · cases hnone.symm.trans ht
    · rw [hk] at ht
      exact hrow key (some.inj ht)
  rw [Owned, since_concat, not_exists]
  rcases htag t with ⟨hsame, hno⟩ | hnone | ⟨k, hk, hplace, honly, -⟩
  · rw [hsame, h.owned t key]
    exact and_congr_right fun _ => ⟨fun ho => .inr ⟨ho, hno⟩,
      fun ho => ho.elim (fun hp => absurd hp (hno _)) fun ho => ho.1⟩
  · rw [hnone]
    exact ⟨(fun hc => nomatch hc), (fun hc => nomatch hc.1)⟩
  rw [hk, some.injEq]
  constructor
  · rintro rfl
    exact ⟨rfl, .inl hplace⟩
  · rintro ⟨-, hp | ⟨-, hno⟩⟩
    · exact (honly _ hp).symm
    · exact absurd hplace (hno k)

/-- What the book still says of the history. -/
def Recalls (history : List Entry) (book : IdentityBook) : Prop :=
  Records history book ∧ Tags history book

theorem Recalls.alike (h : Recalls history book) (ha : book.Alike book')
    (hs : ∀ key, e.Spends key → book.Spent key)
    (hap : ∀ key spec, e.Applies key spec →
      ∃ row, book.recorded key = some row ∧ row.spec = some spec)
    (hp : ∀ t k, ¬ e.Places t k) : Recalls (history ++ [e]) book' := by
  refine ⟨h.1.same ha.installations ha.origins ha.installer hs hap fun t key => hp t _,
    h.2.step (tasks_congr ha.rows ▸ h.2.tasks) (fun t key row _ hrow _ => ?_)
      fun t => .inl ⟨congrFun (tag_congr ha.rows) t, hp t⟩⟩
  exact (congrArg (Keyed.get _ · key) ha.installations).trans hrow

section
variable (hinst : ∀ endpoint id action, e.call ≠ .installation endpoint id action)
include hinst

theorem spends_other (key : InstallKey) : ¬ e.Spends key := by
  rintro ⟨-, _, _, _, hc, -⟩
  exact hinst _ _ _ hc

theorem applies_other (key : InstallKey) (spec : InstallSpec) : ¬ e.Applies key spec :=
  fun h => hinst _ _ _ h.2.1

theorem places_other {t : TaskId} {k : Option InstallKey} (h : e.Places t k) : k = none := by
  cases k with
  | none => rfl
  | some key =>
    obtain ⟨-, -, _, _, hc, -⟩ := h
    exact absurd hc (hinst _ _ _)

theorem recalls_place (h : Recalls history book) (ha : book.Alike book') (b : Binding)
    {i : Install} (hcall : e.call = .bind task i) (hans : e.answer = .ok .unit) :
    Recalls (history ++ [e]) (book'.place task b) := by
  refine ⟨h.1.same ha.installations ha.origins ha.installer
      (fun k hk => absurd hk (spends_other hinst k))
      (fun k spec hk => absurd hk (applies_other hinst k spec))
      (fun t k hk => nomatch places_other hinst hk),
    h.2.step ?_ (fun t key row _ hrow _ => ?_) fun t => ?_⟩
  · exact nodup_place (tasks_congr ha.rows ▸ h.2.tasks) b
  · exact (congrArg (Keyed.get _ · key) ha.installations).trans hrow
  rw [tag_place, tag_congr ha.rows]
  by_cases htask : t = task
  · subst htask
    rw [if_pos rfl]
    exact .inr (.inr ⟨none, rfl, ⟨⟨i, hcall⟩, .unit, hans⟩, fun k hk => places_other hinst hk,
      nofun⟩)
  rw [if_neg htask]
  refine .inl ⟨rfl, fun k hp => ?_⟩
  obtain rfl := places_other hinst hp
  obtain ⟨i', hi'⟩ := hp.1
  cases hcall.symm.trans hi'
  exact htask rfl

theorem recalls_does (h : Recalls history book) (hd : book.Does e.sender e.call e.answer book') :
    Recalls (history ++ [e]) book' := by
  have hquiet (hn : ∀ t, ¬ e.Places t none) (ha : book.Alike book') :
      Recalls (history ++ [e]) book' := by
    refine h.alike ha (fun k hk => absurd hk (spends_other hinst k))
      (fun k spec hk => absurd hk (applies_other hinst k spec)) fun t k hk => hn t ?_
    exact places_other hinst hk ▸ hk
  generalize hcall : e.call = call, hans : e.answer = answer at hd
  -- a binding is put in place by a call that binds and succeeds
  have hbind (hno : ∀ t i, call = .bind t i → ∃ f, answer = .error f) (t : TaskId) :
      ¬ e.Places t none := by
    rintro ⟨⟨i, hi⟩, a, ha⟩
    obtain ⟨f, hf⟩ := hno t i (hcall.symm.trans hi)
    cases (hans.trans hf).symm.trans ha
  cases hd with
  | bound => exact recalls_place hinst h (.refl book) _ hcall hans
  | adopted => exact recalls_place hinst h (alike_child _) _ hcall hans
  | refused => exact hquiet (hbind fun _ _ _ => ⟨_, rfl⟩) (.refl book)
  | spoilt => exact hquiet (hbind fun _ _ _ => ⟨_, rfl⟩) ⟨rfl, rfl, rfl, rfl⟩
  | expelled => exact hquiet (hbind nofun) ⟨by simp [rows, Function.comp_def], rfl, rfl, rfl⟩
  | selected hc =>
    refine hquiet (hbind fun t i hi => ?_) ⟨map_eq_of_forall₂ ?_ fun _ _ h => h, rfl, rfl, rfl⟩
    · subst hi
      cases hc
    · exact forall₂_update (fun _ _ => rfl) fun _ _ => rfl
  | @unbound task =>
    have hplaces : ∀ t k, ¬ e.Places t k := fun t k hk =>
      hbind nofun t (places_other hinst hk ▸ hk)
    refine ⟨h.1.same rfl rfl rfl (fun k hk => absurd hk (spends_other hinst k))
        (fun k spec hk => absurd hk (applies_other hinst k spec)) (fun t key => hplaces t _),
      h.2.step (h.2.tasks.sublist (filter_sublist.map _)) (fun t key row _ hrow _ => hrow)
        fun t => ?_⟩
    rw [tag_filter h.2.tasks]
    cases hg : Keyed.get BindingRow.task book.bindings t with
    | none => exact .inr (.inl rfl)
    | some row =>
      by_cases hrow : row.task = task
      · exact .inr (.inl (by simp [filter_some, hrow]))
      refine .inl ⟨?_, hplaces t⟩
      unfold tag
      rw [hg]
      simp [filter_some, hrow]
  | installed => exact absurd hcall (hinst _ _ _)
  | _ => exact hquiet (hbind nofun) ⟨rfl, rfl, rfl, rfl⟩

end

variable (room : Room)

/-! ## Requests about installations -/

section

variable {key : InstallKey} {action : InstallAction}

def IdentityBook.asked (book : IdentityBook) (room : Room) (key : InstallKey)
    (action : InstallAction) : Entry :=
  book.entry room key.2.1 (.installation key.1 key.2.2 action)

section

variable {room} {r : Except Fail InstallStatus}
  (hres : book.installation room key.2.1 key.1 key.2.2 action = (r, book'))
include hres

theorem answer_asked {a : Answer} (h : (book.asked room key action).answer = .ok a) :
    ∃ status, r = .ok status ∧ a = .status status := by
  change (book.installation room key.2.1 key.1 key.2.2 action).1.map Answer.status = _ at h
  rw [hres] at h
  cases r with
  | error f => cases h
  | ok status => exact ⟨status, rfl, (Except.ok.inj h).symm⟩

theorem spends_asked {k : InstallKey} (h : (book.asked room key action).Spends k) :
    (k.1, k.2.1) = (key.1, key.2.1) ∧ k.2.2 ≤ key.2.2 ∧ action ≠ .inspect ∧
      ∃ status, r = .ok status := by
  obtain ⟨hsender, id', action', a, hcall, hact, hle, hans⟩ := h
  injection hcall with he hid hact'
  subst hid hact'
  obtain ⟨status, hok, -⟩ := answer_asked hres hans
  exact ⟨Prod.ext he.symm hsender.symm, hle, hact, status, hok⟩

theorem applies_asked {k : InstallKey} {spec : InstallSpec}
    (h : (book.asked room key action).Applies k spec) :
    k = key ∧ action = .apply spec ∧ ∃ status, r = .ok status := by
  obtain ⟨hsender, hcall, a, hans⟩ := h
  injection hcall with he hid hact
  obtain ⟨status, hok, -⟩ := answer_asked hres hans
  exact ⟨Prod.ext he.symm (Prod.ext hsender.symm hid.symm), hact, status, hok⟩

theorem places_asked {t : TaskId} {k : Option InstallKey}
    (h : (book.asked room key action).Places t k) :
    k = some key ∧ book.recorded key = none ∧
      ∃ spec status, action = .apply spec ∧ spec.task = t ∧ r = .ok status ∧
        status.state = .installed := by
  cases k with
  | none =>
    obtain ⟨⟨i, hi⟩, -⟩ := h
    cases hi
  | some k =>
    obtain ⟨hsender, hnone, spec, status, hcall, htask, hans, hstate⟩ := h
    injection hcall with he hid hact
    obtain rfl : k = key := Prod.ext he.symm (Prod.ext hsender.symm hid.symm)
    obtain ⟨status', hok, hs⟩ := answer_asked hres hans
    cases hs
    exact ⟨rfl, hnone, spec, status, hact, htask, hok, hstate⟩

theorem recalls_idle (h : Recalls history book) (hbook : book' = book)
    (hplaces : book.recorded key = none → ∀ spec status, action = .apply spec →
      r = .ok status → status.state ≠ .installed)
    (hspends : ∀ status, action ≠ .inspect → r = .ok status → book.Spent key)
    (happlies : ∀ spec status, action = .apply spec → r = .ok status →
      ∃ row, book.recorded key = some row ∧ row.spec = some spec) :
    Recalls (history ++ [book.asked room key action]) book' := by
  subst hbook
  refine h.alike (.refl book') (fun k hk => ?_) (fun k spec hk => ?_) fun t k hk => ?_
  · obtain ⟨hsource, hle, hact, status, hok⟩ := spends_asked hres hk
    obtain ⟨n, hn, hid⟩ := hspends status hact hok
    exact ⟨n, hsource ▸ hn, Nat.le_trans hle hid⟩
  · obtain ⟨rfl, hact, status, hok⟩ := applies_asked hres hk
    exact happlies spec status hact hok
  · obtain ⟨-, hnone, spec, status, hact, -, hok, hstate⟩ := places_asked hres hk
    exact hplaces hnone spec status hact hok hstate

theorem recalls_refused (h : Recalls history book) (hbook : book' = book) {f : Fail}
    (hr : r = .error f) : Recalls (history ++ [book.asked room key action]) book' := by
  subst hr
  exact recalls_idle hres h hbook (fun _ _ _ _ hok => nomatch hok) (fun _ _ hok => nomatch hok)
    fun _ _ _ hok => nomatch hok

theorem recalls_close (h : Recalls history book)
    (hact : action = .cancel ∨ action = .retire) {l1 l2 : List InstallRecord}
    (hl : book.installations = l1 ++ row :: l2) (hrow : book.recorded key = some row)
    (heq : book.reinstall row l1.length action = (r, book')) :
    Recalls (history ++ [book.asked room key action]) book' := by
  obtain ⟨hr, ht⟩ := h
  obtain ⟨row', book1, status, heq', hkey, hspec, hl', ho, hinst, hsub, htag⟩ :=
    reinstall_closes hl hact ht.tasks
  cases heq'.symm.trans heq
  obtain ⟨hkeys, hrec⟩ := recorded_replace hl hl' hkey hr.keys
  have hk : row.key = key := key_of_get hrow
  rw [hk] at hrec htag
  have hplaces : ∀ t k, ¬ (book.asked room key action).Places t k := by
    intro t k hp
    obtain ⟨-, hnone, -⟩ := places_asked hres hp
    cases hrow.symm.trans hnone
  refine ⟨hr.closes hrow hspec hkeys hrec ho hinst (fun k hk => ?_) (fun k spec hk => ?_)
      (fun t k => hplaces t _) ⟨rfl, action, .status status, hact, rfl, ?_⟩,
    ht.step (ht.tasks.sublist (hsub.map _)) (fun t key r htk hr0 hstate => ?_) fun t => ?_⟩
  · obtain ⟨hsource, hle, -⟩ := spends_asked hres hk
    exact ⟨hsource, hle⟩
  · obtain ⟨-, happly, -⟩ := applies_asked hres hk
    rcases hact with rfl | rfl <;> cases happly
  · exact congrArg (fun x => Except.map Answer.status x.1) hres
  · -- a binding that is left is not the one of the record that was closed
    rw [hrec]
    split
    · next he =>
      subst he
      rw [htag] at htk
      split at htk
      · cases htk
      next hno =>
      obtain ⟨r', hr', -, spec, hs, htask⟩ := ht.tagged t _ htk
      cases hrow.symm.trans hr'
      exact absurd ⟨⟨spec, hs, htask⟩, htk⟩ hno
    · exact hr0
  · rw [htag]
    split
    · exact .inr (.inl rfl)
    · exact .inl ⟨rfl, hplaces t⟩

theorem recalls_open (h : Recalls history book)
    (hown : book.Allows key) (hnone : book.recorded key = none)
    (hfresh : ¬ book.Spent key) {book1 : IdentityBook}
    (hrec : book.Recorded (opened key action) book1)
    (heq : book1.settleInstall room (opened key action) = (r, book')) :
    Recalls (history ++ [book.asked room key action]) book' := by
  obtain ⟨hr, ht⟩ := h
  obtain ⟨kept, hl, hsub, hlost⟩ := hrec.records
  obtain ⟨row, book2, heq', hkey, hspec, hl', ho, hinst, hcases⟩ := settle_cases room hl
  cases heq'.symm.trans heq
  have hsource : row.source = (key.1, key.2.1) := congrArg (fun k => (k.1, k.2.1)) hkey
  have hext : book.Extends row book' :=
    recorded_concat hl' hsub (fun r hmem hk => by rw [hsource]; exact hlost r hmem hk)
      (by rw [hkey]; exact hnone) hr.keys
  have hrows : book1.rows = book.rows := by rw [rows, hrec.bindings]
  -- what the entry puts in place is what the record says
  have hplaces : ∀ t k, (book.asked room key action).Places t k →
      k = some key ∧ row.state = .installed ∧ ∃ spec, action.spec = some spec ∧ spec.task = t := by
    intro t k hp
    obtain ⟨hk, -, spec, status, rfl, htask, hok, hstate⟩ := places_asked hres hp
    cases hok
    exact ⟨hk, hstate, spec, rfl, htask⟩
  refine ⟨hr.opens hkey hown hfresh hext (fun source => ?_) (hinst.trans hrec.installer)
    (fun k hk => ?_) (fun k spec hk => ?_) (fun t k hp => ?_),
    ht.step ?_ (fun t key r _ hr0 hstate => ?_) fun t => ?_⟩
  · rw [high_congr ho]
    exact hrec.high source
  · obtain ⟨hs, hle, -⟩ := spends_asked hres hk
    exact ⟨hs, hle⟩
  · obtain ⟨hk, happly, -⟩ := applies_asked hres hk
    refine ⟨hk, ?_⟩
    rw [hspec, happly]
    rfl
  · obtain ⟨hk, hstate, -⟩ := hplaces t _ hp
    exact ⟨some.inj hk, hstate⟩
  · have htasks := (tasks_congr hrows).symm ▸ ht.tasks
    rcases hcases with ⟨-, -, rfl⟩ | ⟨-, -, -, hsame⟩ | ⟨spec, -, -, -, htagged⟩
    · exact htasks
    · rw [tasks_congr hsame]
      exact htasks
    · exact htagged.nodup htasks
  · rcases hext.lost key r hr0 with hkept | ⟨-, hne⟩
    · exact hkept
    · exact absurd hstate hne
  have hold : book1.tag = book.tag := tag_congr hrows
  rcases hcases with ⟨hno, -, rfl⟩ | ⟨-, -, hfailed, hsame⟩ | ⟨spec, hsp, hstate, -, htagged⟩
  · refine .inl ⟨congrFun hold t, fun k hp => ?_⟩
    obtain ⟨-, -, spec, hs, -⟩ := hplaces t k hp
    cases hs.symm.trans hno
  · refine .inl ⟨?_, fun k hp => ?_⟩
    · rw [tag_congr hsame, hold]
    · obtain ⟨-, hstate, -⟩ := hplaces t k hp
      cases hfailed.symm.trans hstate
  rw [htagged.tag, hold]
  by_cases htask : t = spec.task
  · rw [if_pos htask]
    refine .inr (.inr ⟨_, rfl, ?_, fun k' hk' => (hplaces t k' hk').1, fun key hk => ?_⟩)
    · have happly : action = .apply spec := by
        cases action with
        | apply spec' =>
          injection hsp with hsp
          rw [hsp]
        | _ => cases hsp
      refine ⟨rfl, hnone, spec, book'.installStatus row, ?_, htask.symm, ?_, hstate⟩
      · rw [happly]
        rfl
      · exact congrArg (fun x => Except.map Answer.status x.1) hres
    · have hk : key = row.key := (some.inj hk).symm.trans hkey.symm
      refine ⟨row, hk ▸ hext.new, hstate, spec, hspec.trans hsp, htask.symm⟩
  · rw [if_neg htask]
    refine .inl ⟨rfl, fun k hp => ?_⟩
    obtain ⟨-, -, spec', hs, htask'⟩ := hplaces t k hp
    cases hsp.symm.trans hs
    exact htask htask'.symm

end

theorem recalls_installation (h : Recalls history book) (key : InstallKey)
    (action : InstallAction) : Recalls (history ++ [book.asked room key action])
      (book.installation room key.2.1 key.1 key.2.2 action).2 := by
  have htakes := @IdentityBook.installation_takes book room key action
  generalize hres : book.installation room key.2.1 key.1 key.2.2 action = res at htakes
  cases htakes with
  | @again l1 l2 row hown hl hrow =>
    by_cases hact : action = .cancel ∨ action = .retire
    · exact recalls_close hres h hact hl hrow rfl
    unfold reinstall at hres ⊢
    by_cases hsame : action.spec.isSome = true ∧ row.spec ≠ action.spec
    · rw [if_pos hsame] at hres ⊢
      exact recalls_refused hres h rfl rfl
    rw [if_neg hsame, if_neg hact] at hres ⊢
    refine recalls_idle hres h rfl (fun hnone => ?_) (fun _ _ _ => h.1.high _ row hrow)
      fun spec _ happly _ => ⟨row, hrow, ?_⟩
    · cases hrow.symm.trans hnone
    · subst happly
      by_contra hne
      exact hsame ⟨rfl, hne⟩
  | late hnone hle hr' =>
    refine recalls_idle hres h rfl (fun _ spec status happly hok => ?_)
      (fun _ _ _ => hle) fun spec status happly hok => ?_
    all_goals
      rcases hr' with ⟨-, rfl⟩ | ⟨hno, -⟩
      · cases hok
      · exact absurd happly (hno spec)
  | unseen hnone hact =>
    subst hact
    exact recalls_idle hres h rfl (fun _ _ _ happly => nomatch happly)
      (fun _ hne => absurd rfl hne) fun _ _ happly => nomatch happly
  | fresh hown hnone hfresh hact hrec => exact recalls_open hres h hown hnone hfresh hrec rfl
  | _ => exact recalls_refused hres h rfl rfl

end

variable (sender : TaskId)

/-- An installation is carried out with a new number, and for a task whose binding is no other
installation's. -/
theorem places_fresh {call : Call} {t : TaskId}
    (hp : (book.entry room sender call).Places t (some key)) :
    ¬ book.Spent key ∧ ∀ key', book.tag t ≠ some (some key') := by
  obtain ⟨hsender, hnone, spec, status, hcall, rfl, hans, hstate⟩ := hp
  subst hcall
  subst hsender
  have htakes := @IdentityBook.installation_takes book room key (.apply spec)
  generalize hres : book.installation room key.2.1 key.1 key.2.2 (.apply spec) = res at htakes
  obtain ⟨status', hok, hs⟩ := answer_asked hres hans
  cases hs
  cases htakes with
  | denied => cases hok
  | again _ _ hrow => cases hnone.symm.trans hrow
  | late _ _ hr =>
    rcases hr with ⟨-, rfl⟩ | ⟨hno, -⟩
    · cases hok
    · exact absurd rfl (hno spec)
  | unseen _ hact => cases hact
  | full => cases hok
  | fresh _ _ hfresh _ hrec =>
    refine ⟨hfresh, fun key' htag => ?_⟩
    obtain ⟨kept, hl, -⟩ := hrec.records
    obtain ⟨row, book', heq, -, -, -, -, -, hcases⟩ := settle_cases room hl
    rw [heq] at hok
    injection hok with hok
    subst hok
    rcases hcases with ⟨hno, -⟩ | ⟨-, -, hfailed, -⟩ | ⟨spec', hs, -, hfree, -⟩
    · cases hno
    · cases hfailed.symm.trans hstate
    cases hs
    obtain ⟨b, hb, hinstall⟩ := map_eq_some_iff.1 htag
    have := hfree b (hrec.bindings ▸ mem_of_get hb) (key_of_get hb)
    rw [hinstall] at this
    cases this

end

/-! ## Every run -/

section

variable {authority installer : TaskId} {history : List Entry} {book : IdentityBook}

/-- The tags and the largest numbers against the history. -/
theorem runs_recall (h : Runs authority installer history book) : Recalls history book := by
  induction h with
  | new =>
    have hrec : ∀ key, (IdentityBook.new authority installer).recorded key = none := fun _ => rfl
    have htag : ∀ task, (IdentityBook.new authority installer).tag task = none := fun _ => rfl
    refine ⟨⟨nodup_nil, ?_, ?_, forall_mem_nil _, forall_mem_nil _, fun key hst => ?_⟩,
      nodup_nil, ?_, ?_⟩
    · simp [hrec]
    · simp [hrec]
    · obtain ⟨before, e, after, hl, -⟩ := hst
      cases before <;> cases hl
    · simp [htag]
    · simp [htag]
  | call room sender call _ ih =>
    cases call with
    | installation endpoint id action =>
      exact recalls_installation room ih (endpoint, sender, id) action
    | _ => exact recalls_does nofun ih (does_call room sender _)

/-- What was carried out, against what came before. -/
theorem runs_places (h : Runs authority installer history book) :
    ∀ before e after, history = before ++ e :: after → ∀ t key, e.Places t (some key) →
      (∀ e' ∈ before, ¬ e'.Spends key) ∧
      ((e.book.resolve t).isSome = true → ∀ key', ¬ Owned before t key') := by
  induction h with
  | new =>
    intro before e after hl
    cases before <;> cases hl
  | @call history book room sender call hrun ih =>
    intro before e after hl t key hp
    rcases eq_nil_or_concat after with rfl | ⟨after', e2, rfl⟩
    · obtain ⟨rfl, he⟩ := append_inj' hl rfl
      obtain rfl := (List.cons.inj he).1
      obtain ⟨hr, ht⟩ := runs_recall hrun
      obtain ⟨hfresh, hfree⟩ := places_fresh room sender hp
      refine ⟨fun e' he' hsp => ?_, fun hsome key' howned => ?_⟩
      · exact hfresh (hr.spent e' he' key hsp)
      · exact hfree key' ((ht.owned t key').2 ⟨resolve_isSome ▸ hsome, howned⟩)
    · rw [concat_eq_append, ← cons_append, ← append_assoc] at hl
      obtain ⟨rfl, -⟩ := append_inj' hl rfl
      exact ih before e after' rfl t key hp

theorem Entry.Places.spends {t : TaskId} (h : e.Places t (some key)) : e.Spends key := by
  obtain ⟨hsender, -, spec, status, hcall, -, hans, -⟩ := h
  exact ⟨hsender, key.2.2, .apply spec, _, hcall, nofun, Nat.le_refl _, hans⟩

/-- An installation of `spec` that is asked for once more, with `spec'`: the record answers for it,
or the number is passed, the installation does not stand and the request is refused. -/
def Repeats (history : List Entry) (book : IdentityBook) (key : InstallKey) (spec : InstallSpec)
    (room : Room) (spec' : InstallSpec) : Prop :=
  (∃ row, book.recorded key = some row ∧
    book.call room key.2.1 (.installation key.1 key.2.2 (.apply spec')) =
      (if spec' = spec then .ok (.status (book.installStatus row)) else .error .changed, book)) ∨
  (book.recorded key = none ∧ book.Passed key ∧ ¬ Stands history key ∧
    book.call room key.2.1 (.installation key.1 key.2.2 (.apply spec')) = (.error .changed, book))

theorem apply_again (h : Runs authority installer history book) (he : e ∈ history)
    {spec : InstallSpec} (ha : e.Applies key spec) (room : Room) (spec' : InstallSpec) :
    Repeats history book key spec room spec' := by
  obtain ⟨hr, -⟩ := runs_recall h
  obtain ⟨hown, hspec, hlost⟩ := hr.applied e he key spec ha
  have htakes := @IdentityBook.installation_takes book room key (.apply spec')
  have hcall : book.call room key.2.1 (.installation key.1 key.2.2 (.apply spec')) =
      answered .status (book.installation room key.2.1 key.1 key.2.2 (.apply spec')) := rfl
  rw [Repeats, hcall]
  cases hrec : book.recorded key with
  | some row =>
    refine .inl ⟨row, rfl, ?_⟩
    have hrow := hspec row hrec
    generalize book.installation room key.2.1 key.1 key.2.2 (.apply spec') = res at htakes
    cases htakes with
    | denied hd => exact absurd hown hd
    | @again l1 l2 row' _ _ hrow' =>
      have hrr : row = row' := some.inj (hrec.symm.trans hrow')
      subst hrr
      unfold reinstall
      by_cases hs : spec' = spec
      · subst hs
        rw [if_neg (fun hc => hc.2 hrow), if_neg (by rintro (hc | hc) <;> cases hc), if_pos rfl]
        rfl
      · have hne : row.spec ≠ some spec' := fun hc => hs (some.inj (hrow.symm.trans hc)).symm
        rw [if_pos ⟨rfl, hne⟩, if_neg hs]
        rfl
    | late hnone | unseen hnone | full hnone | fresh _ hnone => cases hrec.symm.trans hnone
  | none =>
    have hhigh := hlost hrec
    refine .inr ⟨rfl, hhigh, fun hst => ?_, ?_⟩
    · obtain ⟨row, hrow, -⟩ := hr.stands key hst
      cases hrec.symm.trans hrow
    obtain ⟨n, hn, hlt⟩ := hhigh
    generalize book.installation room key.2.1 key.1 key.2.2 (.apply spec') = res at htakes
    cases htakes with
    | denied hd => exact absurd hown hd
    | again _ _ hrow => cases hrec.symm.trans hrow
    | late _ _ hr' =>
      rcases hr' with ⟨-, rfl⟩ | ⟨hno, -⟩
      · rfl
      · exact absurd rfl (hno spec')
    | unseen _ hact => cases hact
    | full _ hfresh | fresh _ _ hfresh =>
      exact absurd ⟨n, hn, hlt.le⟩ hfresh

/-- An installation is closed: its own binding goes, and no other. -/
theorem close_exact (h : Runs authority installer history book) (room : Room) (sender : TaskId)
    (endpoint : PieToken) (id : Nat) {action : InstallAction}
    (hact : action = .cancel ∨ action = .retire)
    (hsome : (book.resolve task).isSome = true) :
    ((book.call room sender (.installation endpoint id action)).2.resolve task = none ↔
      Owned history task (endpoint, sender, id)) := by
  obtain ⟨hr, ht⟩ := runs_recall h
  rw [resolve_isSome] at hsome
  have hnone : ∀ book' : IdentityBook, book'.resolve task = none ↔ book'.tag task = none := by
    intro book'
    rw [← isNone_iff_eq_none, ← isNone_iff_eq_none, ← not_isSome,
      ← not_isSome, resolve_isSome]
  rw [hnone]
  have howned := ht.owned task (endpoint, sender, id)
  rw [and_iff_right hsome] at howned
  rw [← howned]
  -- without a record the installation has no binding, and the book stays
  have hidle : book.recorded (endpoint, sender, id) = none →
      (book.tag task = none ↔ book.tag task = some (some (endpoint, sender, id))) := by
    intro hrec
    constructor
    · intro hn
      rw [hn] at hsome
      cases hsome
    · intro htag
      obtain ⟨row, hrow, -⟩ := ht.tagged task _ htag
      cases hrec.symm.trans hrow
  have hcall : (book.call room sender (.installation endpoint id action)).2 =
      (book.installation room sender endpoint id action).2 := rfl
  rw [hcall]
  have htakes := @IdentityBook.installation_takes book room (endpoint, sender, id) action
  generalize book.installation room sender endpoint id action = res at htakes
  cases htakes with
  | denied hd =>
    refine hidle ?_
    cases hrec : book.recorded (endpoint, sender, id) with
    | none => rfl
    | some row => exact absurd (hr.own _ row hrec) hd
  | late hnone | unseen hnone | full hnone => exact hidle hnone
  | @again l1 l2 row _ hl hrow =>
    obtain ⟨row', book', status, heq, -, -, -, -, -, -, htag⟩ :=
      reinstall_closes hl hact ht.tasks
    have hk : row.key = (endpoint, sender, id) := key_of_get hrow
    rw [heq, htag, hk]
    constructor
    · intro hn
      split at hn
      · next hc => exact hc.2
      · rw [hn] at hsome
        cases hsome
    intro htag
    obtain ⟨r, hr', -, spec, hspec, htask⟩ := ht.tagged task _ htag
    cases hrow.symm.trans hr'
    rw [if_pos ⟨⟨spec, hspec, htask⟩, htag⟩]
  | fresh _ hnone _ _ hrec =>
    obtain ⟨kept, hl, -⟩ := hrec.records
    obtain ⟨row, book', heq, -, -, -, -, -, hcases⟩ := settle_cases room hl
    have hspec : (opened (endpoint, sender, id) action).spec = none := by
      rcases hact with rfl | rfl <;> rfl
    rcases hcases with ⟨-, -, rfl⟩ | ⟨spec, hs, -⟩ | ⟨spec, hs, -⟩
    · rw [heq]
      have : book'.tag = book.tag := tag_congr (by rw [rows, hrec.bindings])
      rw [this]
      exact hidle hnone
    · cases hspec.symm.trans hs
    · cases hspec.symm.trans hs

/-- In every run an installation is carried out at most once, and never when its number, or a larger
one of its origin, was spent before.  Asked for once more, it is answered from its record or
refused. Cancelling or retiring it takes back exactly the binding that it put in place, and it never
puts one in place of another installation's. -/
theorem installs_once (h : Runs authority installer history book) :
    (history.Pairwise fun e e' => ∀ key task task',
      e.Places task (some key) → ¬ e'.Places task' (some key)) ∧
    (history.Pairwise fun e e' => ∀ key task, e.Spends key → ¬ e'.Places task (some key)) ∧
    (∀ e ∈ history, ∀ key spec, e.Applies key spec → ∀ room spec',
      Repeats history book key spec room spec') ∧
    (∀ room sender endpoint id action task, action = .cancel ∨ action = .retire →
      (book.resolve task).isSome = true →
      ((book.call room sender (.installation endpoint id action)).2.resolve task = none ↔
        Owned history task (endpoint, sender, id))) ∧
    (∀ before e after, history = before ++ e :: after → ∀ task key, e.Places task (some key) →
      (e.book.resolve task).isSome = true → ∀ key', ¬ Owned before task key') := by
  have hplaces := runs_places h
  have hspent : history.Pairwise fun e e' => ∀ key task, e.Spends key →
      ¬ e'.Places task (some key) := by
    refine pairwise_iff_forall_sublist.2 fun {e e'} hsub key task hs hp => ?_
    obtain ⟨l1, l2, rfl, hl1, hl2⟩ := cons_sublist_iff.1 hsub
    obtain ⟨m1, m2, rfl⟩ := append_of_mem (singleton_sublist.1 hl2)
    exact (hplaces (l1 ++ m1) e' m2 (by simp) task key hp).1 e (mem_append_left _ hl1) hs
  refine ⟨hspent.imp fun hs key task task' hp => hs key task' hp.spends, hspent,
    fun e he key spec ha room spec' => apply_again h he ha room spec',
    fun room sender endpoint id action task hact hsome =>
      close_exact h room sender endpoint id hact hsome,
    fun before e after hl task key hp => (hplaces before e after hl task key hp).2⟩

end

/-! ## Two histories -/

/-- Task 1 installs a binding for task 10, and another for task 11 that fails, as the binding it is
to inherit is not there. -/
private def requests : List (TaskId × Call) :=
  [(1, .installation 7 1 (.apply ⟨11, .inherit 12⟩)),
    (1, .installation 7 2 (.apply ⟨10, .derive ⟨2, 0⟩⟩))]

/-- The second installation is carried out, and cancelling it takes its binding back. -/
theorem installs_once_derived :
    (replay 2 1 requests).2.resolve 10 ≠ none ∧
    ((replay 2 1 requests).2.call ⟨true, true, true, true, true, true⟩ 1
      (.installation 7 2 .cancel)).2.resolve 10 = none := by
  have hsome : ((replay 2 1 requests).2.resolve 10).isSome = true := by decide +kernel
  refine ⟨isSome_iff_ne_none.1 hsome, ?_⟩
  refine ((installs_once (runs_replayFrom .new requests)).2.2.2.1 _ 1 7 2 .cancel 10 (.inl rfl)
    hsome).2 ?_
  refine ⟨(replay 2 1 (requests.take 1)).1, _, [], rfl, ⟨rfl, ?_, ⟨10, .derive ⟨2, 0⟩⟩, ?_⟩, ?_⟩
  · decide +kernel
  · refine ⟨⟨.installed, some ⟨⟨⟨2, 1⟩, .empty⟩, ⟨⟨2, 1⟩, .empty⟩⟩, none⟩, rfl, rfl, ?_, rfl⟩
    decide +kernel
  · exact fun e he => nomatch he

/-- The first installation failed.  Its record went with the second, and asked for once more with
the same specification it is refused. -/
theorem forgotten_failure :
    (replay 2 1 (requests.take 1)).1.map (fun e => (e.sender, e.call)) =
      [(1, .installation 7 1 (.apply ⟨11, .inherit 12⟩))] ∧
    (replay 2 1 (requests.take 1)).1.map (·.answer) =
      [.ok (.status ⟨.failed, none, some .denied⟩)] ∧
    ((replay 2 1 (requests.take 1)).2.call ⟨true, true, true, true, true, true⟩ 1
      (.installation 7 1 (.apply ⟨11, .inherit 12⟩))).1 =
        .ok (.status ⟨.failed, none, some .denied⟩) ∧
    ((replay 2 1 requests).2.call ⟨true, true, true, true, true, true⟩ 1
      (.installation 7 1 (.apply ⟨11, .inherit 12⟩))).1 = .error .changed := by
  decide +kernel

end Sqware.Identity
