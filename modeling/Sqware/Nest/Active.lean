import Sqware.Nest.ViewSpec

/-!
# Active ranges by address

The Views of the model count in pages.  Here a range is as the code has it: a 64-bit address and a
number of bytes, with an end that saturates at the last address.  A part that is cut out of a range
starts at an address made by `VirtAddr::from_raw`, which extends the sign from the split bit of the
translation mode; where that changes the address, the part lies somewhere else.
-/

namespace Sqware.Nest.Bytes

open Spans List Option

/-- `VirtAddr::from_raw` in a mode with this split bit. -/
def fromRaw (bit addr : Nat) : BitVec 64 :=
  (BitVec.ofNat 64 addr <<< (63 - bit)).sshiftRight (63 - bit)

/-- The addresses `from_raw` leaves as they are. -/
def Canonical (bit addr : Nat) : Prop := (fromRaw bit addr).toNat = addr

structure ActiveRange where
  start : BitVec 64
  size : Nat
  pos : 0 < size
  ceiling : Access
  current : Access

namespace ActiveRange

variable (bit : Nat) (r : ActiveRange)

def addr : Nat := r.start.toNat

/-- `end`, which saturates. -/
def last : Nat := min (2 ^ 64 - 1) (r.addr + (r.size - 1))

instance : Spanned ActiveRange := ⟨addr, last⟩

def overlaps (lo hi : Nat) : Bool := r.addr ≤ hi && lo ≤ r.last

/-- The loop of `cover` is that of the library. -/
def cover (rs : List ActiveRange) (lo hi : Nat) : Bool := reaches rs lo hi

def before (lo : Nat) : List ActiveRange :=
  if h : r.addr < lo then [{ r with size := lo - r.addr, pos := by omega }] else []

def after (hi : Nat) : List ActiveRange :=
  if hi < r.last then
    [{ r with start := fromRaw bit (hi + 1), size := r.last - (hi + 1) + 1, pos := by omega }]
  else []

def middle (lo hi : Nat) (ceiling current : Access) : ActiveRange :=
  { start := fromRaw bit (max r.addr lo), size := min r.last hi - max r.addr lo + 1
    pos := by omega, ceiling, current }

def splitOne (lo hi : Nat) (access : Option Access) : List ActiveRange :=
  if !r.overlaps lo hi then [r]
  else r.before lo ++ access.toList.map (r.middle bit lo hi r.ceiling ·) ++ r.after bit hi

/-- `room`: whether the result can be reserved. -/
def split (room : Bool) (rs : List ActiveRange) (lo hi : Nat) (access : Option Access) :
    Except NestError (List ActiveRange) :=
  if !room then .error .outOfMemory else .ok (rs.flatMap fun r => r.splitOne bit lo hi access)

def narrowOne (lo hi : Nat) (ceiling : Access) : Except NestError (List ActiveRange) :=
  if !r.overlaps lo hi then .ok [r]
  else if !r.ceiling.contains ceiling then .error .widenDenied
  else if !(r.current &&& ceiling).isLeafSet then .error .widenDenied
  else .ok (r.before lo ++ [r.middle bit lo hi ceiling (r.current &&& ceiling)] ++ r.after bit hi)

def narrowAll (lo hi : Nat) (ceiling : Access) :
    List ActiveRange → Except NestError (List ActiveRange)
  | [] => .ok []
  | r :: rs => do
    let part ← r.narrowOne bit lo hi ceiling
    let next ← narrowAll lo hi ceiling rs
    return part ++ next

def narrow (room : Bool) (rs : List ActiveRange) (lo hi : Nat) (ceiling : Access) :
    Except NestError (List ActiveRange) :=
  if !room then .error .outOfMemory else narrowAll bit lo hi ceiling rs

/-- The ceiling and the permission of a range. -/
def rights : Access × Access := (r.ceiling, r.current)

/-- The rights at an address. -/
def rightsAt (rs : List ActiveRange) (x : Nat) : Option (Access × Access) :=
  (covering rs x).map rights

/-! ## Cutting a range -/

variable {bit r} {lo' hi' : Nat}

theorem addr_le_last : lo r ≤ hi r := by
  change r.addr ≤ min (2 ^ 64 - 1) (r.addr + (r.size - 1))
  have : r.addr < 2 ^ 64 := r.start.isLt
  omega

theorem overlaps_iff : r.overlaps lo' hi' = true ↔ lo r ≤ hi' ∧ lo' ≤ hi r := by
  simp only [overlaps, Bool.and_eq_true, decide_eq_true_eq]
  rfl

theorem cut_self (ho : r.overlaps lo' hi' = false) {v : Option (Access × Access)} :
    Cut rights lo' hi' v r [r] :=
  cut_apart addr_le_last fun h => by simp [overlaps_iff.2 h] at ho

/-- A range that starts where it was meant to fills its span. -/
theorem piece_of {a b : Nat} (t : ActiveRange) (ha : t.addr = a) (hab : a ≤ b) (hb : b < 2 ^ 64)
    (hsize : t.size = b - a + 1) : Piece rights [t] a b (some t.rights) := by
  refine .inr ⟨t, rfl, ha, ?_, hab, rfl⟩
  change min (2 ^ 64 - 1) (t.addr + (t.size - 1)) = b
  omega

theorem last_lt : hi r < 2 ^ 64 := by
  change min (2 ^ 64 - 1) _ < _
  omega

theorem piece_before (h2 : lo' ≤ hi r) : Piece rights (r.before lo') (lo r) (lo' - 1)
    (if lo r < lo' then some r.rights else none) := by
  have := @last_lt r
  unfold before
  split
  · next h =>
    rw [if_pos (show lo r < lo' from h)]
    exact piece_of _ rfl (show r.addr ≤ lo' - 1 by omega) (by omega)
      (show lo' - r.addr = lo' - 1 - r.addr + 1 by omega)
  · next h => exact .inl ⟨rfl, if_neg h⟩

theorem piece_after (hc : hi' < r.last → Canonical bit (hi' + 1)) :
    Piece rights (r.after bit hi') (hi' + 1) (hi r)
      (if hi' < hi r then some r.rights else none) := by
  unfold after
  split
  · next h =>
    rw [if_pos (show hi' < hi r from h)]
    exact piece_of _ (hc h) h last_lt rfl
  · next h => exact .inl ⟨rfl, if_neg h⟩

theorem piece_middle (hle : lo' ≤ hi') (ho : r.overlaps lo' hi' = true)
    (hc : Canonical bit (max (lo r) lo')) (ceiling current : Access) :
    Piece rights [r.middle bit lo' hi' ceiling current] (max (lo r) lo') (min (hi r) hi')
      (some (ceiling, current)) := by
  have h1 := overlaps_iff.1 ho
  have h2 := @addr_le_last r
  have h3 := @last_lt r
  exact piece_of _ hc (by omega) (by omega) rfl

/-! ## The operations -/

variable {rs out : List ActiveRange} {ceiling : Access}

theorem narrowAll_cons (h : narrowAll bit lo' hi' ceiling (r :: rs) = .ok out) :
    ∃ part rest, r.narrowOne bit lo' hi' ceiling = .ok part ∧
      narrowAll bit lo' hi' ceiling rs = .ok rest ∧ out = part ++ rest := by
  rw [narrowAll] at h
  cases hr : r.narrowOne bit lo' hi' ceiling with
  | error e =>
    rw [hr] at h
    cases h
  | ok part =>
    cases hrs : narrowAll bit lo' hi' ceiling rs with
    | error e =>
      rw [hr, hrs] at h
      cases h
    | ok rest =>
      rw [hr, hrs] at h
      cases h
      exact ⟨part, rest, rfl, rfl, rfl⟩

section

variable (hle : lo' ≤ hi')
  (hafter : r.overlaps lo' hi' = true → hi' < r.last → Canonical bit (hi' + 1))

include hle hafter

theorem splitOne_cut (access : Option Access) (hmid : access.isSome → r.overlaps lo' hi' = true →
      Canonical bit (max r.addr lo')) :
    Cut rights lo' hi' (access.map fun c => (r.ceiling, c)) r (r.splitOne bit lo' hi' access) := by
  unfold splitOne
  cases ho : r.overlaps lo' hi' with
  | false => exact cut_self ho
  | true =>
    obtain ⟨h1, h2⟩ := overlaps_iff.1 ho
    refine cut_parts hle h1 h2 (piece_before h2) ?_ (piece_after (hafter ho))
    cases access with
    | none => exact .inl ⟨rfl, rfl⟩
    | some c => exact piece_middle hle ho (hmid rfl ho) r.ceiling c

theorem narrowOne_cut (hmid : r.overlaps lo' hi' = true → Canonical bit (max r.addr lo'))
    {part : List ActiveRange} (h : r.narrowOne bit lo' hi' ceiling = .ok part) :
    Cut rights lo' hi' (some (ceiling, r.current &&& ceiling)) r part := by
  unfold narrowOne at h
  cases ho : r.overlaps lo' hi' with
  | false =>
    cases (if_pos (by simp [ho])).symm.trans h
    exact cut_self ho
  | true =>
    simp only [ho, Bool.not_true, Bool.false_eq_true, if_false] at h
    split at h
    · cases h
    split at h
    · cases h
    cases h
    obtain ⟨h1, h2⟩ := overlaps_iff.1 ho
    exact cut_parts hle h1 h2 (piece_before h2) (piece_middle hle ho (hmid ho) _ _)
      (piece_after (hafter ho))

end

/-- Where no part starts at an address that is not canonical, the operations change the rights in
the window and nothing else. -/
theorem active_ranges_exact (h : Ordered rs) (hle : lo' ≤ hi')
    (hafter : ∀ r ∈ rs, r.overlaps lo' hi' = true → hi' < r.last → Canonical bit (hi' + 1)) :
    (∃ out, split bit true rs lo' hi' none = .ok out ∧ Ordered out ∧
      ∀ x, rightsAt out x = if lo' ≤ x ∧ x ≤ hi' then none else rightsAt rs x) ∧
    ((∀ r ∈ rs, r.overlaps lo' hi' = true → Canonical bit (max r.addr lo')) →
      (∀ access, ∃ out, split bit true rs lo' hi' (some access) = .ok out ∧ Ordered out ∧
        ∀ x, rightsAt out x = if lo' ≤ x ∧ x ≤ hi' then
          (rightsAt rs x).map fun c => (c.1, access) else rightsAt rs x) ∧
      ∀ room ceiling out, narrow bit room rs lo' hi' ceiling = .ok out → Ordered out ∧
        ∀ x, rightsAt out x = if lo' ≤ x ∧ x ≤ hi' then
          (rightsAt rs x).map fun c => (ceiling, c.2 &&& ceiling) else rightsAt rs x) ∧
    (cover rs lo' hi' = true ↔ ∀ x, lo' ≤ x → x ≤ hi' → (rightsAt rs x).isSome) := by
  refine ⟨?_, fun hmid => ⟨fun access => ?_, fun room ceiling out hn => ?_⟩, ?_⟩
  · have hcut := fun r hr => splitOne_cut hle (hafter r hr) none nofun
    refine ⟨_, rfl, h.flatMap (cuts_of_cut hcut), fun x => (covering_cut h hcut x).trans ?_⟩
    rw [rightsAt]
    cases covering rs x <;> rfl
  · have hcut := fun r hr => splitOne_cut hle (hafter r hr) (some access) fun _ => hmid r hr
    refine ⟨_, rfl, h.flatMap (cuts_of_cut hcut), fun x => (covering_cut h hcut x).trans ?_⟩
    rw [rightsAt]
    cases covering rs x <;> rfl
  · unfold narrow at hn
    split at hn
    · cases hn
    obtain ⟨g, rfl, hg⟩ := flatMap_of_ok (g := narrowAll bit lo' hi' ceiling) rfl
      (fun _ _ _ => narrowAll_cons) hn
    have hcut := fun r hr => narrowOne_cut hle (hafter r hr) (hmid r hr) (hg r hr)
    refine ⟨h.flatMap (cuts_of_cut hcut), fun x => (covering_cut h hcut x).trans ?_⟩
    rw [rightsAt]
    cases covering rs x <;> rfl
  · simp only [rightsAt, isSome_map, isSome_covering_iff]
    exact reaches_iff h hle

/-- A page, a hole, and the last page of the address space. -/
private def holed : List ActiveRange :=
  [⟨0xffffffffffffd000#64, 4096, by decide, 7#3, 3#3⟩,
    ⟨0xfffffffffffff000#64, 4096, by decide, 7#3, 3#3⟩]

/-- The halves of two pages around a hole are narrowed, and the other halves are not. -/
theorem active_ranges_exact_holed :
    cover holed 0xfffffffffffff000 0xffffffffffffffff = true ∧
    ∃ out, narrow 38 true holed 0xffffffffffffd800 0xfffffffffffff7ff 5#3 = .ok out ∧
      rightsAt out 0xffffffffffffd7ff = some (7#3, 3#3) ∧
      rightsAt out 0xffffffffffffd800 = some (5#3, 1#3) ∧
      rightsAt out 0xffffffffffffe000 = none ∧
      rightsAt out 0xffffffffffffffff = some (7#3, 3#3) := by
  have hord : Ordered holed :=
    ordered_cons.2 ⟨addr_le_last, by decide, ordered_singleton addr_le_last⟩
  have hafter : ∀ r ∈ holed, r.overlaps 0xffffffffffffd800 0xfffffffffffff7ff = true →
      0xfffffffffffff7ff < r.last → Canonical 38 (0xfffffffffffff7ff + 1) := fun _ _ _ _ => rfl
  obtain ⟨-, hops, -⟩ := active_ranges_exact hord (by decide) hafter
  obtain ⟨-, hnarrow⟩ :=
    hops (forall_mem_cons.2 ⟨fun _ => rfl, forall_mem_singleton.2 fun _ => rfl⟩)
  have hat := (hnarrow true 5#3 _ rfl).2
  exact ⟨by decide, _, rfl, (hat _).trans (by decide), (hat _).trans (by decide),
    (hat _).trans (by decide), (hat _).trans (by decide)⟩

/-- Three pages across the end of the lower half. -/
private def astride : ActiveRange := ⟨0x3ffffff000#64, 12288, by decide, 7#3, 3#3⟩

/-- The page in the middle is taken out, and the one after it goes too: what is left of the range
starts where `from_raw` puts it. -/
theorem split_displaces : Ordered [astride] ∧
    ∃ out, split 38 true [astride] 0x4000000000 0x4000000fff none = .ok out ∧
      rightsAt [astride] 0x4000001000 = some (7#3, 3#3) ∧ rightsAt out 0x4000001000 = none :=
  ⟨ordered_singleton addr_le_last, _, rfl, by decide, by decide⟩

end ActiveRange

end Sqware.Nest.Bytes
