import Sqware.Assembly.Frames

/-!
# The records over a step

`Sound` is what always holds of the records: one per key, each number under the watermark of its
scope, and retired scopes out of use.  `Grows` is what every step does to them: a number that is
spent stays spent, a record never loses its cancellation or its fingerprint, and a new record is for
a number that was not spent.
-/

namespace Sqware.Assembly

open List Option Keyed

namespace Jobs

variable {j j' j'' : Jobs} {key : CreateKey} {scope : Scope} {dead : Scope → Prop}

/-! ## Sweeping -/

/-- The scopes a sweep leaves alone. -/
def stays (closed : List Scope) (creates : List CreateRecord) (scope : Scope) : Bool :=
  scope ∉ closed || pendingIn creates scope

theorem pendingIn_iff {creates : List CreateRecord} :
    pendingIn creates scope = true ↔ ∃ r ∈ creates, r.scope = scope ∧ r.pending = true := by
  simp [pendingIn]

theorem pendingIn_filter (q : Scope → Bool) (creates : List CreateRecord) (scope : Scope) :
    pendingIn (creates.filter fun r => q r.scope) scope = (q scope && pendingIn creates scope) := by
  rw [Bool.eq_iff_iff, Bool.and_eq_true, pendingIn_iff, pendingIn_iff]
  constructor
  · rintro ⟨r, hr, hs, hp⟩
    obtain ⟨hr, hq⟩ := mem_filter.1 hr
    exact ⟨hs ▸ hq, r, hr, hs, hp⟩
  · rintro ⟨hq, r, hr, hs, hp⟩
    exact ⟨r, mem_filter.2 ⟨hr, by rwa [hs]⟩, hs, hp⟩

/-- A sweep in one go. -/
theorem sweepFrom_eq (closed : List Scope) (creates : List CreateRecord)
    (watermarks : List CreateWatermark) :
    sweepFrom closed creates watermarks =
      (closed.filter (pendingIn creates),
        creates.filter (fun r => stays closed creates r.scope),
        watermarks.filter fun m => stays closed creates m.scope) := by
  induction closed generalizing creates watermarks with
  | nil => simp [sweepFrom, stays]
  | cons scope rest ih =>
    cases hp : pendingIn creates scope with
    | true =>
      have hstays : stays (scope :: rest) creates = stays rest creates := by
        funext x
        by_cases hx : x = scope
        · simp [stays, hx, hp]
        · simp [stays, hx]
      simp only [sweepFrom, hp, if_true, ih, hstays, filter_cons]
    | false =>
      have hpend : pendingIn (creates.filter (·.scope ≠ scope)) = pendingIn creates := by
        funext x
        rw [pendingIn_filter (fun y => decide (y ≠ scope))]
        by_cases hx : x = scope
        · simp [hx, hp]
        · simp [hx]
      have hstays : ∀ x, (stays rest creates x && decide (x ≠ scope)) =
          stays (scope :: rest) creates x := by
        intro x
        by_cases hx : x = scope
        · simp [stays, hx, hp]
        · simp [stays, hx]
      have hsame : stays rest (creates.filter (·.scope ≠ scope)) = stays rest creates := by
        funext x
        rw [stays, hpend, stays]
      simp only [sweepFrom, hp, Bool.false_eq_true, if_false, ih, hpend, hsame, filter_cons,
        List.filter_filter, hstays]

theorem sweep_closed :
    j.sweepClosedCreateScopes.closed = j.closed.filter (pendingIn j.creates) := by
  simp only [sweepClosedCreateScopes, sweepFrom_eq]

theorem sweep_creates : j.sweepClosedCreateScopes.creates =
    j.creates.filter fun r => stays j.closed j.creates r.scope := by
  simp only [sweepClosedCreateScopes, sweepFrom_eq]

theorem sweep_create : j.sweepClosedCreateScopes.create key =
    if stays j.closed j.creates key.scope then j.create key else none := by
  rw [create, sweep_creates]
  exact get_filter_key fun k : CreateKey => stays j.closed j.creates k.scope

theorem sweep_watermark : j.sweepClosedCreateScopes.watermark scope =
    if stays j.closed j.creates scope then j.watermark scope else none := by
  simp only [watermark, sweepClosedCreateScopes, sweepFrom_eq]
  exact get_filter_key (stays j.closed j.creates)

/-- Every retired scope has something pending. -/
def Swept (j : Jobs) : Prop := ∀ scope ∈ j.closed, pendingIn j.creates scope = true

theorem swept_sweep (j : Jobs) : j.sweepClosedCreateScopes.Swept := by
  intro scope hscope
  rw [sweep_closed] at hscope
  obtain ⟨_, hp⟩ := mem_filter.1 hscope
  rw [sweep_creates, pendingIn_filter, hp]
  simp [stays, hp]

/-! ## Growing -/

/-- The number is at most the largest one of its scope, or the scope is out of use. -/
def Spent (dead : Scope → Prop) (j : Jobs) (key : CreateKey) : Prop :=
  (∃ m, j.watermark key.scope = some m ∧ key.id ≤ m.highest) ∨ dead key.scope

/-- Keys are distinct, up to the largest of their scope; a closed scope is out of use. -/
structure Sound (dead : Scope → Prop) (j : Jobs) : Prop where
  keys : (j.creates.map CreateRecord.key).Nodup
  marks : ∀ key r, j.create key = some r → ∃ m, j.watermark key.scope = some m ∧ key.id ≤ m.highest
  closed : ∀ scope ∈ j.closed, dead scope

/-- A record as it may be after a step. -/
def Follows (r r' : CreateRecord) : Prop :=
  (r.cancelled = true → r'.cancelled = true) ∧
    (r.fingerprint.isSome = true → r'.fingerprint.isSome = true)

theorem Follows.refl (r : CreateRecord) : Follows r r := ⟨id, id⟩

variable {r : CreateRecord}

theorem Follows.trans {r' r'' : CreateRecord} (h : Follows r r') (h' : Follows r' r'') :
    Follows r r'' :=
  ⟨h'.1 ∘ h.1, h'.2 ∘ h.2⟩

/-- What is spent stays so, and a record that appears was not spent. -/
structure Grows (dead : Scope → Prop) (j j' : Jobs) : Prop where
  spent : ∀ key, j.Spent dead key → j'.Spent dead key
  records : ∀ key r', j'.create key = some r' →
    (∃ r, j.create key = some r ∧ Follows r r') ∨ ¬ j.Spent dead key

theorem Grows.refl (j : Jobs) : Grows dead j j :=
  ⟨fun _ h => h, fun _ r hr => .inl ⟨r, hr, .refl r⟩⟩

theorem Grows.trans (h : Grows dead j j') (h' : Grows dead j' j'') : Grows dead j j'' := by
  refine ⟨fun key hs => h'.spent key (h.spent key hs), ?_⟩
  intro key r'' hr''
  rcases h'.records key r'' hr'' with ⟨r', hr', hf'⟩ | hnew
  · rcases h.records key r' hr' with ⟨r, hr, hf⟩ | hnew
    · exact .inl ⟨r, hr, hf.trans hf'⟩
    · exact .inr hnew
  · exact .inr fun hs => hnew (h.spent key hs)

/-- The records of scopes in use are kept. -/
def Keeps (dead : Scope → Prop) (j j' : Jobs) : Prop :=
  ∀ key, ¬ dead key.scope → (j.create key).isSome = true → (j'.create key).isSome = true

/-- From sound records to sound records, growing. -/
def Evolves (dead : Scope → Prop) (j j' : Jobs) : Prop :=
  Sound dead j → Sound dead j' ∧ Grows dead j j'

theorem Evolves.trans (h : Evolves dead j j') (h' : Evolves dead j' j'') : Evolves dead j j'' := by
  intro hs
  obtain ⟨hs', hg⟩ := h hs
  obtain ⟨hs'', hg'⟩ := h' hs'
  exact ⟨hs'', hg.trans hg'⟩

theorem Keeps.trans (h : Keeps dead j j') (h' : Keeps dead j' j'') : Keeps dead j j'' :=
  fun key hd hr => h' key hd (h key hd hr)

/-- The records, the watermarks and the retired scopes are the same. -/
structure Alike (j j' : Jobs) : Prop where
  creates : j'.creates = j.creates
  watermarks : j'.watermarks = j.watermarks
  closed : j'.closed = j.closed

theorem Alike.create (h : Alike j j') (key : CreateKey) : j'.create key = j.create key := by
  rw [Jobs.create, h.creates, Jobs.create]

theorem Alike.watermark (h : Alike j j') (scope : Scope) :
    j'.watermark scope = j.watermark scope := by
  rw [Jobs.watermark, h.watermarks, Jobs.watermark]

theorem Alike.evolves (h : Alike j j') : Evolves dead j j' := by
  intro hs
  refine ⟨⟨by rw [h.creates]; exact hs.keys, ?_, by rw [h.closed]; exact hs.closed⟩, ?_, ?_⟩
  · intro key r hr
    rw [h.watermark]
    exact hs.marks key r (by rw [← h.create, hr])
  · intro key hspent
    unfold Spent
    rwa [h.watermark]
  · intro key r' hr'
    exact .inl ⟨r', by rw [← h.create, hr'], .refl r'⟩

theorem Alike.keeps (h : Alike j j') : Keeps dead j j' := by
  intro key _ hr
  rwa [h.create]

theorem Alike.refl (j : Jobs) : Alike j j := ⟨rfl, rfl, rfl⟩

/-! ## The functions that change records -/

@[simp] theorem setCreate_work (f : CreateRecord → CreateRecord) :
    (j.setCreate key f).work = j.work := rfl

variable {f : CreateRecord → CreateRecord}

theorem setCreate_create (hf : ∀ r, (f r).key = r.key) (key' : CreateKey) :
    (j.setCreate key f).create key' =
      if key' = key then (j.create key).map f else j.create key' := by
  have hkey : ∀ r : CreateRecord, r.key = key → (f r).key = key := fun r hr => (hf r).trans hr
  exact get_update hkey key'

theorem setCreate_evolves (hf : ∀ r, (f r).key = r.key) (hfollows : ∀ r, Follows r (f r)) :
    Evolves dead j (j.setCreate key f) := by
  intro hs
  have hrecord : ∀ key' r', (j.setCreate key f).create key' = some r' →
      ∃ r, j.create key' = some r ∧ Follows r r' := by
    intro key' r' hr'
    rw [setCreate_create hf] at hr'
    split at hr'
    · next he =>
      obtain ⟨r, hr, rfl⟩ := map_eq_some_iff.1 hr'
      exact ⟨r, he ▸ hr, hfollows r⟩
    · exact ⟨r', hr', .refl r'⟩
  have hkey : ∀ r : CreateRecord, r.key = key → (f r).key = key := fun r hr => (hf r).trans hr
  have hmap : (j.setCreate key f).creates.map CreateRecord.key = j.creates.map CreateRecord.key :=
    map_update hkey
  refine ⟨⟨by rw [hmap]; exact hs.keys, ?_, hs.closed⟩, fun _ h => h, ?_⟩
  · intro key' r' hr'
    obtain ⟨r, hr, -⟩ := hrecord key' r' hr'
    exact hs.marks key' r hr
  · exact fun key' r' hr' => .inl (hrecord key' r' hr')

theorem setCreate_keeps (hf : ∀ r, (f r).key = r.key) : Keeps dead j (j.setCreate key f) := by
  intro key' _ hr
  rw [setCreate_create hf]
  split
  · next he =>
    rw [isSome_map, ← he]
    exact hr
  · exact hr

theorem setSaid_evolves (said : Said) : Evolves dead j (j.setSaid key said) :=
  setCreate_evolves (fun _ => rfl) fun _ => ⟨id, id⟩

theorem setSaid_keeps (said : Said) : Keeps dead j (j.setSaid key said) :=
  setCreate_keeps fun _ => rfl

theorem sweep_evolves : Evolves dead j j.sweepClosedCreateScopes := by
  intro hs
  -- a scope that goes was retired, so it is out of use
  have hgone : ∀ scope, stays j.closed j.creates scope = false → dead scope := by
    intro scope hscope
    simp only [stays, Bool.or_eq_false_iff, decide_eq_false_iff_not, not_not] at hscope
    exact hs.closed scope hscope.1
  refine ⟨⟨?_, ?_, ?_⟩, ?_, ?_⟩
  · rw [sweep_creates]
    exact hs.keys.sublist (filter_sublist.map _)
  · intro key r hr
    rw [sweep_create] at hr
    split at hr
    · next hstays =>
      rw [sweep_watermark, if_pos hstays]
      exact hs.marks key r hr
    · cases hr
  · intro scope hscope
    rw [sweep_closed] at hscope
    exact hs.closed scope (mem_filter.1 hscope).1
  · rintro key (⟨m, hm, hle⟩ | hd)
    · cases hstays : stays j.closed j.creates key.scope with
      | true => exact .inl ⟨m, by rw [sweep_watermark, if_pos hstays]; exact hm, hle⟩
      | false => exact .inr (hgone key.scope hstays)
    · exact .inr hd
  intro key r' hr'
  rw [sweep_create] at hr'
  split at hr'
  · exact .inl ⟨r', hr', .refl r'⟩
  · cases hr'

theorem sweep_keeps (hs : Sound dead j) : Keeps dead j j.sweepClosedCreateScopes := by
  intro key hd hr
  have hstays : stays j.closed j.creates key.scope = true := by
    simp only [stays, Bool.or_eq_true, decide_eq_true_eq]
    exact .inl fun hmem => hd (hs.closed key.scope hmem)
  rw [sweep_create, if_pos hstays]
  exact hr

theorem prune_create (hs : Sound dead j) (key' : CreateKey) : (j.pruneCreates key).create key' =
    (j.create key').filter fun r => r.scope ≠ key.scope || key.id - 64 < r.key.id || r.pending :=
  get_filter hs.keys _

theorem prune_evolves : Evolves dead j (j.pruneCreates key) := by
  intro hs
  have hrecord : ∀ key' r, (j.pruneCreates key).create key' = some r → j.create key' = some r := by
    intro key' r hr
    rw [prune_create hs] at hr
    exact (filter_eq_some_iff.1 hr).1
  refine ⟨⟨hs.keys.sublist (filter_sublist.map _), ?_, hs.closed⟩, fun _ h => h, ?_⟩
  · exact fun key' r hr => hs.marks key' r (hrecord key' r hr)
  · exact fun key' r hr => .inl ⟨r, hrecord key' r hr, .refl r⟩

/-! ## New records -/

variable {room : Room}

theorem refuses_eq_none (h : j.refuses room key = none) :
    ∀ m, j.watermark key.scope = some m → m.highest < key.id := by
  intro m hm
  by_contra hle
  have hconflict : j.refuses room key = some .conflict := by
    unfold refuses
    rw [hm]
    exact if_pos (by simpa using hle)
  cases h.symm.trans hconflict

theorem not_spent (h : j.refuses room key = none) (hd : ¬ dead key.scope) : ¬ j.Spent dead key := by
  rintro (⟨m, hm, hle⟩ | hdead)
  · have hlt := refuses_eq_none h m hm
    omega
  · exact hd hdead

theorem enter_watermark (r : CreateRecord) (scope : Scope) : (j.enter r).watermark scope =
    if scope = r.scope then some ⟨r.scope, r.key.id⟩ else j.watermark scope := by
  have hf : ∀ m : CreateWatermark, m.scope = r.scope →
      ({ m with highest := r.key.id } : CreateWatermark).scope = r.scope := fun _ hm => hm
  unfold enter watermark
  split
  · next m hm =>
    rw [get_update hf]
    split
    · rw [hm, map_some, ← key_of_get hm]
    · rfl
  · next hm =>
    exact get_append_fresh hm scope

theorem enter_create (h : j.create r.key = none) (key : CreateKey) :
    (j.enter r).create key = if key = r.key then some r else j.create key :=
  get_append_fresh h key

theorem enter_evolves (h : j.create r.key = none) (hfree : j.refuses room r.key = none)
    (hd : ¬ dead r.scope) : Evolves dead j (j.enter r) := by
  intro hs
  have hbelow : ∀ (key : CreateKey) (m : CreateWatermark), j.watermark key.scope = some m →
      key.id ≤ m.highest →
      ∃ m', (j.enter r).watermark key.scope = some m' ∧ key.id ≤ m'.highest := by
    intro key m hm hle
    rw [enter_watermark]
    split
    · next he =>
      have hlt := refuses_eq_none hfree m (by rw [← hm, he]; rfl)
      exact ⟨_, rfl, by dsimp only; omega⟩
    · exact ⟨m, hm, hle⟩
  refine ⟨⟨nodup_append hs.keys h, ?_, hs.closed⟩, ?_, ?_⟩
  · intro key r' hr'
    rw [enter_create h] at hr'
    split at hr'
    · next he =>
      rw [enter_watermark, he, if_pos (by rfl)]
      exact ⟨_, rfl, Nat.le_refl _⟩
    · obtain ⟨m, hm, hle⟩ := hs.marks key r' hr'
      exact hbelow key m hm hle
  · rintro key (⟨m, hm, hle⟩ | hdead)
    · exact .inl (hbelow key m hm hle)
    · exact .inr hdead
  intro key r' hr'
  rw [enter_create h] at hr'
  split at hr'
  · next he => exact .inr (he ▸ not_spent hfree hd)
  · exact .inl ⟨r', hr', .refl r'⟩

theorem enter_keeps (h : j.create r.key = none) : Keeps dead j (j.enter r) := by
  intro key _ hr
  rw [enter_create h]
  split
  · rfl
  · exact hr

end Jobs

end Sqware.Assembly
