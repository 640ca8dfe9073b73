import Mathlib.Algebra.GroupWithZero.Nat
import Mathlib.Data.List.Induction
import Sqware.Lib.Segments

/-!
# Paths and scopes

A path is a text of names joined by slashes, at most eight of them and 255 bytes long.  A scope is a
set of such paths, read as prefixes relative to an anchor, or everything below the anchor.  Scopes
are compared as texts: `narrows` for two scopes of one anchor, `narrowsAt` for a scope whose anchor
lies at a path below.
-/

namespace Sqware.Operator

open List Segments

open Segments (Proper join)

abbrev Text : Type := List Char

/-- Length in bytes. -/
def bytes (s : Text) : Nat := (s.map Char.utf8Size).sum

/-- The parts that are not empty. -/
def segments (s : Text) : List Text := (s.splitOn '/').filter (· ≠ [])

theorem proper_segments (s : Text) : Proper '/' (segments s) := by
  intro w hw
  obtain ⟨hw, hne⟩ := mem_filter.1 hw
  exact ⟨by simpa using hne, not_mem_of_mem_splitOn hw⟩

theorem segments_word {w : Text} (hne : w ≠ []) (hw : '/' ∉ w) : segments w = [w] := by
  simp [segments, splitOn_eq_singleton hw, hne]

/-! ## Paths -/

def Path.MAX : Nat := 8
def Path.MAX_LEN : Nat := 255

/-- Ready for a further part. -/
def slashed (road : Text) : Text := if road = [] then road else road ++ ['/']

/-- Appends the parts one by one; `n` parts are there. -/
def joinSegments (road : Text) (n : Nat) : List Text → Option Text
  | [] => some road
  | w :: l =>
    if Path.MAX < n + 1 then none
    else
      if Path.MAX_LEN < bytes (slashed road) + bytes w then none
      else joinSegments (slashed road ++ w) (n + 1) l

/-- Not too many names and not too long. -/
def Fits (l : List Text) : Prop := l.length ≤ Path.MAX ∧ bytes (join '/' l) ≤ Path.MAX_LEN

instance (l : List Text) : Decidable (Fits l) := inferInstanceAs (Decidable (_ ∧ _))

theorem bytes_append (s t : Text) : bytes (s ++ t) = bytes s + bytes t := by
  simp [bytes]

theorem bytes_join_append (l l' : List Text) :
    bytes (join '/' l) ≤ bytes (join '/' (l ++ l')) ∧
      bytes (join '/' l') ≤ bytes (join '/' (l ++ l')) := by
  by_cases hl : l = []
  · subst hl
    exact ⟨Nat.zero_le _, Nat.le_refl _⟩
  by_cases hl' : l' = []
  · subst hl'
    rw [append_nil]
    exact ⟨Nat.le_refl _, Nat.zero_le _⟩
  · have hcons : bytes ('/' :: join '/' l') = Char.utf8Size '/' + bytes (join '/' l') := rfl
    rw [join_append hl hl', bytes_append, hcons]
    exact ⟨Nat.le_add_right _ _, by omega⟩

variable {l l' : List Text}

theorem Fits.left (h : Fits (l ++ l')) : Fits l := by
  have hlen := h.1
  rw [length_append] at hlen
  exact ⟨by omega, Nat.le_trans (bytes_join_append l l').1 h.2⟩

theorem Fits.right (h : Fits (l ++ l')) : Fits l' := by
  have hlen := h.1
  rw [length_append] at hlen
  exact ⟨by omega, Nat.le_trans (bytes_join_append l l').2 h.2⟩

theorem slashed_join (hl : Proper '/' l) (w : Text) :
    slashed (join '/' l) ++ w = join '/' (l ++ [w]) := by
  unfold slashed
  by_cases hnil : l = []
  · subst hnil
    rfl
  · rw [if_neg fun he => hnil ((join_eq_nil hl).1 he), join_concat hnil,
      append_assoc]
    rfl

theorem joinSegments_eq (hl : Proper '/' l) (hl' : Proper '/' l')
    (hf : Fits l) : joinSegments (join '/' l) l.length l' =
      if Fits (l ++ l') then some (join '/' (l ++ l')) else none := by
  induction l' generalizing l with
  | nil => rw [append_nil, if_pos hf, joinSegments]
  | cons w l' ih =>
    have hp : Proper '/' (l ++ [w]) := hl.append fun v hv => hl' v (by simp_all)
    have hcons : l ++ w :: l' = (l ++ [w]) ++ l' := by rw [append_assoc]; rfl
    unfold joinSegments
    rw [slashed_join hl, ← bytes_append, slashed_join hl]
    by_cases hw : Fits (l ++ [w])
    · have hlen := hw.1
      rw [length_append, length_singleton] at hlen
      have hih := ih hp (fun v hv => hl' v (mem_cons_of_mem w hv)) hw
      rw [length_append, length_singleton] at hih
      rw [if_neg (Nat.not_lt.2 hlen), if_neg (Nat.not_lt.2 hw.2), hih, hcons]
    have hno : ¬ Fits (l ++ [w] ++ l') := fun he => hw he.left
    rw [hcons, if_neg hno]
    split
    · rfl
    next hlen =>
    refine if_pos (Nat.lt_of_not_le fun hb => hw ⟨?_, hb⟩)
    rw [length_append, length_singleton]
    omega

/-- A path in normal form. -/
structure PathBuf where
  road : Text
  canonical : ∃ l, Proper '/' l ∧ road = join '/' l
  deriving DecidableEq

/-- The text of `PathBuf::try_new`: any spelling in, the normal form out. -/
def normal (s : Text) : Option Text := joinSegments [] 0 (segments s)

theorem proper_nil : Proper '/' ([] : List Text) := by simp [Proper]

theorem fits_nil : Fits [] := by decide

theorem normal_eq (s : Text) :
    normal s = if Fits (segments s) then some (join '/' (segments s)) else none :=
  joinSegments_eq proper_nil (proper_segments s) fits_nil

theorem normal_canonical {s p : Text} (h : normal s = some p) :
    ∃ l, Proper '/' l ∧ p = join '/' l := by
  rw [normal_eq] at h
  split at h
  · exact ⟨segments s, proper_segments s, (Option.some.inj h).symm⟩
  · cases h

theorem segments_join (h : Proper '/' l) : segments (join '/' l) = l := by
  unfold segments
  by_cases hl : l = []
  · subst hl
    simp [join]
  · rw [splitOn_join h hl, filter_eq_self]
    intro w hw
    simpa using (h w hw).1

theorem normal_join (h : Proper '/' l) :
    normal (join '/' l) = if Fits l then some (join '/' l) else none := by
  rw [normal_eq, segments_join h]

def PathBuf.tryNew (s : Text) : Option PathBuf :=
  match h : normal s with
  | none => none
  | some p => some ⟨p, normal_canonical h⟩

def tryJoin (road leaf : Text) : Option Text :=
  joinSegments road (if road = [] then 0 else (road.splitOn '/').length) (segments leaf)

theorem tryJoin_eq {w : Text} (hl : Proper '/' l) (hf : Fits l) (hne : w ≠ [])
    (hw : '/' ∉ w) : tryJoin (join '/' l) w =
      if Fits (l ++ [w]) then some (join '/' (l ++ [w])) else none := by
  have hn : (if join '/' l = [] then 0 else ((join '/' l).splitOn '/').length) = l.length := by
    by_cases hnil : l = []
    · subst hnil
      rfl
    · rw [if_neg fun he => hnil ((join_eq_nil hl).1 he), splitOn_join hl hnil]
  unfold tryJoin
  rw [hn, segments_word hne hw]
  refine joinSegments_eq hl (fun v hv => ?_) hf
  obtain rfl := mem_singleton.1 hv
  exact ⟨hne, hw⟩

theorem foldlM_tryJoin {names : List Text} (h : Proper '/' names) :
    names.foldlM tryJoin [] = if Fits names then some (join '/' names) else none := by
  induction names using List.reverseRec with
  | nil => rw [if_pos fits_nil]; rfl
  | append_singleton names w ih =>
    obtain ⟨hne, hw⟩ := h w (by simp)
    rw [foldlM_append, ih h.left]
    by_cases hf : Fits names
    · rw [if_pos hf]
      exact (Option.bind_some (join '/' names) _).trans (by
        rw [foldlM_cons]
        simp only [foldlM_nil, bind_pure]
        exact tryJoin_eq h.left hf hne hw)
    · rw [if_neg hf, if_neg fun he => hf he.left]
      rfl

/-- A single name, as requests may use it. -/
def validName (name : Text) : Bool :=
  name ≠ [] ∧ bytes name ≤ 31 ∧ '/' ∉ name ∧ name ≠ ['.'] ∧ name ≠ ['.', '.'] ∧
    normal name = some name

theorem validName_word {name : Text} (h : validName name = true) : name ≠ [] ∧ '/' ∉ name := by
  simp only [validName, decide_eq_true_eq] at h
  exact ⟨h.1, h.2.2.1⟩

/-! ## Scopes -/

def stripPrefix : Text → Text → Option Text
  | [], s => some s
  | c :: p, d :: s => if c = d then stripPrefix p s else none
  | _ :: _, [] => none

theorem stripPrefix_some {p s t : Text} : stripPrefix p s = some t ↔ s = p ++ t := by
  induction p generalizing s with
  | nil => simp [stripPrefix]
  | cons c p ih =>
    cases s with
    | nil => simp [stripPrefix]
    | cons d s =>
      unfold stripPrefix
      split
      · next h => rw [ih, h, cons_append, List.cons.injEq, eq_self_iff_true, true_and]
      · next h =>
        simp only [cons_append, List.cons.injEq, reduceCtorEq, false_iff, not_and]
        exact fun he => absurd he.symm h

/-- The path itself or one that goes on after a slash. -/
def under (path relative : Text) : Bool :=
  relative = path || (stripPrefix path relative).any (·.head? = some '/')

theorem under_iff {path relative : Text} :
    under path relative = true ↔ relative = path ∨ ∃ t, relative = path ++ '/' :: t := by
  unfold under
  rw [Bool.or_eq_true, decide_eq_true_eq]
  refine or_congr_right ?_
  cases hs : stripPrefix path relative with
  | none =>
    simp only [Option.any_none, Bool.false_eq_true, false_iff, not_exists]
    intro t ht
    rw [stripPrefix_some.2 ht] at hs
    cases hs
  | some u =>
    rw [stripPrefix_some] at hs
    subst hs
    rw [Option.any_some, decide_eq_true_eq]
    constructor
    · intro hu
      cases u with
      | nil => cases hu
      | cons c u =>
        cases hu
        exact ⟨u, rfl⟩
    · rintro ⟨t, ht⟩
      rw [append_cancel_left ht]
      rfl

theorem under_trans {p q r : Text} (h : under p q = true) (h' : under q r = true) :
    under p r = true := by
  rw [under_iff] at *
  rcases h with rfl | ⟨t, rfl⟩
  · exact h'
  · rcases h' with rfl | ⟨t', rfl⟩
    · exact .inr ⟨t, rfl⟩
    · exact .inr ⟨t ++ '/' :: t', by simp⟩

inductive Scope
  | subtree
  | names (names : List PathBuf)
  deriving DecidableEq

namespace Scope

def allows : Scope → Text → Bool
  | subtree, _ => true
  | names l, relative => l.any fun n => under n.road relative

/-- Whether `child`, relative to the same anchor, is inside. -/
def narrows : Scope → Scope → Bool
  | subtree, _ => true
  | names parent, names child => child.all fun n => parent.any fun p => under p.road n.road
  | names _, subtree => false

/-- Whether `child`, relative to its own anchor, is inside. -/
def narrowsAt (anchor : Text) : Scope → Scope → Bool
  | subtree, _ => true
  | names l, child =>
    if l.any fun n => under n.road anchor then true
    else
      match child with
      | subtree => false
      | names children => children.all fun c => l.any fun n =>
          match (stripPrefix anchor n.road).bind (stripPrefix ['/']) with
          | none => false
          | some tail => under tail c.road

end Scope

/-- What the narrower scope allows the wider one does. -/
theorem narrows_allows {s s' : Scope} (h : s.narrows s' = true)
    {r : Text} (hr : s'.allows r = true) :
    s.allows r = true := by
  match s, s' with
  | .subtree, _ => rfl
  | .names l, .names l' =>
    simp only [Scope.narrows, Scope.allows, List.all_eq_true, List.any_eq_true] at *
    obtain ⟨n, hn, hnr⟩ := hr
    obtain ⟨p, hp, hpn⟩ := h n hn
    exact ⟨p, hp, under_trans hpn hnr⟩
  | .names l, .subtree => simp [Scope.narrows] at h

/-- The text of a path below an anchor. -/
def below (anchor relative : Text) : Text :=
  if relative = [] then anchor else if anchor = [] then relative else anchor ++ '/' :: relative

theorem under_below (anchor relative : Text) (ha : anchor ≠ []) :
    under anchor (below anchor relative) = true := by
  unfold below
  rw [under_iff, if_neg ha]
  split
  · exact .inl rfl
  · exact .inr ⟨relative, rfl⟩

/-- A path in normal form does not end in a slash. -/
theorem PathBuf.road_ne (p : PathBuf) (a : Text) : p.road ≠ a ++ ['/'] := by
  obtain ⟨road, l, hl, rfl⟩ := p
  intro he
  dsimp only at he
  rcases eq_nil_or_concat l with rfl | ⟨l, w, rfl⟩
  · simp [join] at he
  obtain ⟨hne, hw⟩ := hl w (by simp)
  have hlast : (join '/' (l ++ [w])).getLast? = w.getLast? := by
    by_cases hnil : l = []
    · subst hnil
      rfl
    rw [join_concat hnil, List.getLast?_append, getLast?_cons_of_ne_nil hne]
    cases hlw : w.getLast? with
    | none => exact absurd (getLast?_eq_none_iff.1 hlw) hne
    | some c => rfl
  rw [← concat_eq_append, he, List.getLast?_concat] at hlast
  exact hw (mem_of_getLast? hlast.symm)

/-- Likewise below the anchor. -/
theorem narrowsAt_allows {s s' : Scope} {anchor : Text} (ha : anchor ≠ [])
    (h : s.narrowsAt anchor s' = true) {r : Text} (hr : s'.allows r = true) :
    s.allows (below anchor r) = true := by
  cases s with
  | subtree => rfl
  | names l =>
    simp only [Scope.narrowsAt] at h
    split at h
    · next hany =>
      -- the anchor itself lies in the scope
      obtain ⟨n, hn, hna⟩ := any_eq_true.1 hany
      exact any_eq_true.2 ⟨n, hn, under_trans hna (under_below anchor r ha)⟩
    cases s' with
    | subtree => cases h
    | names l' =>
      obtain ⟨c, hc, hcr⟩ := any_eq_true.1 hr
      obtain ⟨n, hn, htail⟩ := any_eq_true.1 (all_eq_true.1 h c hc)
      refine any_eq_true.2 ⟨n, hn, ?_⟩
      split at htail
      · cases htail
      next tail ht =>
      obtain ⟨u, hu, hut⟩ := Option.bind_eq_some_iff.1 ht
      rw [stripPrefix_some] at hu hut
      have hroad : n.road = anchor ++ '/' :: tail := by
        rw [hu, hut]
        rfl
      have htr := under_trans htail hcr
      have hne : r ≠ [] := by
        rintro rfl
        rcases under_iff.1 htr with he | ⟨t, he⟩
        · exact n.road_ne anchor (by rw [hroad, ← he])
        · cases tail <;> cases he
      unfold below
      rw [if_neg hne, if_neg ha, hroad, under_iff]
      rcases under_iff.1 htr with rfl | ⟨t, rfl⟩
      · exact .inl rfl
      · exact .inr ⟨t, by simp⟩

end Sqware.Operator
