import MojitoSys.Memory.StackRegistry

/-!
# The geometry of a stack

The sizes of `mjs_stack_alloc` are rounded and added in `size_t` arithmetic, behind checks that
refuse a request whose sizes do not fit. The additions, subtractions and products are listed, in
the order in which the code comes to them, so that a wrap can be seen. The rounding `n + align - 1`
wraps for the largest `n` that passes its check, and the subtraction wraps back, so that every size
is exact.

## Main definitions

* `SizeOp`, `SizeOp.Wraps`: the operations on sizes.
* `stackTrace`: the sizes of a request, with the operations that lead to them.
* `SizeOp.Undone`: the wrap that the next operation undoes.
* `StackLaw`: the geometry of a stack.
* `Refused`: the requests that do not fit.

## Main results

* `stackTrace_snd`: the traced sizes are those of `stackGeometry`.
* `stack_alloc_geometry`: the geometry of every stack, and the requests that are refused.
-/

namespace MojitoSys.Memory

open Util

/-! ### The operations on sizes -/

/-- An operation on sizes, with its operands. -/
inductive SizeOp
  | add (a b : Size)
  | sub (a b : Size)
  | mul (a b : Size)
  deriving DecidableEq, Repr

/-- The exact result is not a `size_t`. -/
def SizeOp.Wraps : SizeOp → Prop
  | add a b => 2 ^ 64 ≤ a.toNat + b.toNat
  | sub a b => a.toNat < b.toNat
  | mul a b => 2 ^ 64 ≤ a.toNat * b.toNat

theorem SizeOp.wraps_add {a b : Size} : (add a b).Wraps ↔ 2 ^ 64 ≤ a.toNat + b.toNat := Iff.rfl

theorem SizeOp.wraps_sub {a b : Size} : (sub a b).Wraps ↔ a.toNat < b.toNat := Iff.rfl

theorem SizeOp.wraps_mul {a b : Size} : (mul a b).Wraps ↔ 2 ^ 64 ≤ a.toNat * b.toNat := Iff.rfl

instance : DecidablePred SizeOp.Wraps
  | .add _ _ => inferInstanceAs (Decidable (_ ≤ _))
  | .sub _ _ => inferInstanceAs (Decidable (_ < _))
  | .mul _ _ => inferInstanceAs (Decidable (_ ≤ _))

/-- The operations of `round_up`. -/
def roundUpOps (n align : Size) : List SizeOp :=
  [.add n align, .sub (n + align) 1, .mul ((n + align - 1) / align) align]

/-- The operations of the check `n > SIZE_MAX - (ps - 1)`. -/
def gateOps (ps : Size) : List SizeOp := [.sub ps 1, .sub SIZE_MAX (ps - 1)]

/-- Some operations, and then a check that refuses the request if `p`, or goes on with `rest`. -/
def checked {α : Type*} (ops : List SizeOp) (p : Prop) [Decidable p]
    (rest : List SizeOp × Option α) : List SizeOp × Option α :=
  if p then (ops, none) else (ops ++ rest.1, rest.2)

/-- The offset of the commitment, if there is one. -/
def offsetOps (total commit : Size) : List SizeOp :=
  if commit = 0 then [] else [.sub total commit]

/-- The commitment is clamped to the usable span. -/
def clamp (commit usable : Size) : Size := if commit > usable then usable else commit

/-- The sizes of `mjs_stack_alloc`, with the operations that it comes to. -/
def stackTrace (ps reserveBytes initialCommitBytes guardBytes : Size) :
    List SizeOp × Option Geometry :=
  let guard := roundUp guardBytes ps
  let usable := roundUp (usableReq ps reserveBytes) ps
  let commit := clamp (roundUp initialCommitBytes ps) usable
  checked [] (guardBytes = 0 ∨ guardBytes % ps ≠ 0) <|
  checked (gateOps ps) (guardBytes > SIZE_MAX - (ps - 1)) <|
  checked (roundUpOps guardBytes ps ++ gateOps ps)
    (usableReq ps reserveBytes > SIZE_MAX - (ps - 1)) <|
  checked (roundUpOps (usableReq ps reserveBytes) ps ++ [.sub SIZE_MAX usable])
    (guard > SIZE_MAX - usable) <|
  checked (.add guard usable :: gateOps ps) (initialCommitBytes > SIZE_MAX - (ps - 1)) <|
  (roundUpOps initialCommitBytes ps ++ offsetOps (guard + usable) commit,
    some ⟨guard, usable, commit⟩)

theorem checked_snd {α : Type*} (ops : List SizeOp) (p : Prop) [Decidable p]
    (rest : List SizeOp × Option α) :
    (checked ops p rest).2 = if p then none else rest.2 := by
  unfold checked
  split <;> rfl

/-- The traced sizes are those of the allocator. -/
theorem stackTrace_snd (ps reserve commit guard : Size) :
    (stackTrace ps reserve commit guard).2 = stackGeometry ps reserve commit guard := by
  simp only [stackTrace, checked_snd, stackGeometry, clamp]

/-- The wrap of `n + ps` in a rounding and the wrap back of its subtraction, for the largest `n`;
the rounding is exact. -/
def SizeOp.Undone (ps : Size) (op : SizeOp) : Prop :=
  ∃ n : Size, n.toNat + ps.toNat = 2 ^ 64 ∧ (op = .add n ps ∨ op = .sub (n + ps) 1) ∧
    (roundUp n ps).toNat = roundUpNat n.toNat ps.toNat

/-- An operation does not wrap, or its wrap is undone. -/
def SizeOp.Exact (ps : Size) (op : SizeOp) : Prop := op.Wraps → op.Undone ps

section Ops

variable {ps n : Size}

theorem toNat_SIZE_MAX : SIZE_MAX.toNat = 18446744073709551615 := rfl

/-- A subtraction from the largest size. -/
theorem exact_sub_max (n : Size) : (SizeOp.sub SIZE_MAX n).Exact ps := by
  intro hwrap
  rw [SizeOp.wraps_sub, toNat_SIZE_MAX] at hwrap
  have hlt := n.isLt
  omega

theorem exact_gateOps (hps : 0 < ps.toNat) : ∀ op ∈ gateOps ps, op.Exact ps := by
  simp only [gateOps, List.forall_mem_cons]
  refine ⟨fun hwrap => ?_, exact_sub_max _, List.forall_mem_nil _⟩
  rw [SizeOp.wraps_sub] at hwrap
  change ps.toNat < 1 at hwrap
  omega

/-- The check before the sum of two sizes. -/
theorem add_lt_of_le_sub {a b : Size} (h : ¬ a > SIZE_MAX - b) : a.toNat + b.toNat < 2 ^ 64 := by
  have hle := mt BitVec.lt_def.mpr h
  have hb := b.isLt
  rw [BitVec.toNat_sub, toNat_SIZE_MAX] at hle
  omega

/-- The operations of a rounding that passed its check. -/
theorem exact_roundUpOps (hps : 0 < ps.toNat) (h : n.toNat + ps.toNat ≤ 2 ^ 64) :
    ∀ op ∈ roundUpOps n ps, op.Exact ps := by
  have hround := roundUp_toNat hps h
  simp only [roundUpOps, List.forall_mem_cons]
  refine ⟨fun hwrap => ?_, fun hwrap => ?_, fun hwrap => ?_, List.forall_mem_nil _⟩
  · rw [SizeOp.wraps_add] at hwrap
    exact ⟨n, Nat.le_antisymm h hwrap, Or.inl rfl, hround⟩
  · refine ⟨n, ?_, Or.inr rfl, hround⟩
    rw [SizeOp.wraps_sub] at hwrap
    change (n + ps).toNat < 1 at hwrap
    rw [BitVec.toNat_add] at hwrap
    omega
  · -- The product is at most the sum, which is below `2 ^ 64`.
    have hsum : (n + ps - 1).toNat = n.toNat + ps.toNat - 1 := by bv_omega
    rw [SizeOp.wraps_mul, BitVec.toNat_udiv, hsum] at hwrap
    have hle := Nat.div_mul_le_self (n.toNat + ps.toNat - 1) ps.toNat
    omega

theorem exact_checked {α : Type*} {ops : List SizeOp} {p : Prop} [Decidable p]
    {rest : List SizeOp × Option α} (hops : ∀ op ∈ ops, op.Exact ps)
    (hrest : ¬ p → ∀ op ∈ rest.1, op.Exact ps) : ∀ op ∈ (checked ops p rest).1, op.Exact ps := by
  unfold checked
  split
  · exact hops
  · rename_i hp
    exact List.forall_mem_append.mpr ⟨hops, hrest hp⟩

theorem clamp_le (commit usable : Size) : (clamp commit usable).toNat ≤ usable.toNat := by
  unfold clamp
  split
  · exact le_rfl
  · rename_i h
    exact not_lt.mp (mt BitVec.lt_def.mpr h)

/-- No operation wraps, but for the roundings of the largest sizes. -/
theorem exact_stackTrace (hps : 0 < ps.toNat) (reserve commit guard : Size) :
    ∀ op ∈ (stackTrace ps reserve commit guard).1, op.Exact ps := by
  have hgate := exact_gateOps hps
  refine exact_checked (List.forall_mem_nil _) fun _ => ?_
  refine exact_checked hgate fun hguard => ?_
  have hguardOps := exact_roundUpOps hps (add_le_of_no_wrap hps hguard)
  refine exact_checked (List.forall_mem_append.mpr ⟨hguardOps, hgate⟩) fun husable => ?_
  have husableOps := exact_roundUpOps hps (add_le_of_no_wrap hps husable)
  refine exact_checked (List.forall_mem_append.mpr
    ⟨husableOps, List.forall_mem_singleton.mpr (exact_sub_max _)⟩) fun htotal => ?_
  have hsum := add_lt_of_le_sub htotal
  refine exact_checked (List.forall_mem_cons.mpr ⟨fun hwrap => ?_, hgate⟩) fun hcommit => ?_
  · rw [SizeOp.wraps_add] at hwrap
    omega
  have hcommitOps := exact_roundUpOps hps (add_le_of_no_wrap hps hcommit)
  refine List.forall_mem_append.mpr ⟨hcommitOps, ?_⟩
  unfold offsetOps
  split
  · exact List.forall_mem_nil _
  · refine List.forall_mem_singleton.mpr fun hwrap => ?_
    have hle := clamp_le (roundUp commit ps) (roundUp (usableReq ps reserve) ps)
    rw [SizeOp.wraps_sub, BitVec.toNat_add, Nat.mod_eq_of_lt hsum] at hwrap
    omega

end Ops

/-! ### The geometry -/

/-- The requests that do not fit: a guard that is not a positive number of pages, or a rounding or
the sum that is not a `size_t`. -/
def Refused (k : ℕ) (reserve commit guard : Size) : Prop :=
  guard = 0 ∨ ¬ 2 ^ k ∣ guard.toNat ∨ 2 ^ 64 ≤ roundUpNat guard.toNat (2 ^ k) ∨
    2 ^ 64 ≤ roundUpNat (max reserve.toNat 1) (2 ^ k) ∨
    2 ^ 64 ≤ roundUpNat commit.toNat (2 ^ k) ∨
    2 ^ 64 ≤ guard.toNat + roundUpNat (max reserve.toNat 1) (2 ^ k)

/-- The size of the span that is read-write. -/
def commitSpan (k : ℕ) (reserve commit : Size) : ℕ :=
  min (roundUpNat commit.toNat (2 ^ k)) (roundUpNat (max reserve.toNat 1) (2 ^ k))

/-- The geometry of a stack, with the protections after the call and before it. -/
structure StackLaw (k : ℕ) (reserve commit guard : Size) (base guardLow top : Addr)
    (prot old : ℕ → Prot) : Prop where
  guardLow_eq : guardLow.toNat = base.toNat + guard.toNat
  top_eq : top.toNat = base.toNat + guard.toNat + roundUpNat (max reserve.toNat 1) (2 ^ k)
  aligned : 16 ∣ top.toNat
  readWrite : ∀ x, base.toNat ≤ x → x < top.toNat →
    (prot x = .readWrite ↔ top.toNat - commitSpan k reserve commit ≤ x)
  inside : guardLow.toNat + commitSpan k reserve commit ≤ top.toNat
  guard : ∀ x, base.toNat ≤ x → x < guardLow.toNat → prot x = .none
  frame : ∀ x, x < base.toNat ∨ top.toNat ≤ x → prot x = old x

/-- What the system promises of the `mmap`: whole pages, inside the address space. -/
def MappedRange (k : ℕ) (sys : BitVec 64) (reserve commit guard : Size) (ans : AllocAnswers) :
    Prop :=
  ∀ g base, stackGeometry (pageSize sys) reserve commit guard = some g → ans.mmap = .ok base →
    2 ^ k ∣ base.toNat ∧ base.toNat + g.total.toNat < 2 ^ 64

section Geometry

variable {k : ℕ} {sys : BitVec 64} {reserve commit guard : Size} {outs : Outs}
  {ans : AllocAnswers} {w w' : World} {g : Geometry} {base : Addr}

/-- The usable span of a request for no bytes is one page. -/
theorem roundUpNat_usableReq {ps : Size} (hps : 0 < ps.toNat) :
    roundUpNat (usableReq ps reserve).toNat ps.toNat =
      roundUpNat (max reserve.toNat 1) ps.toNat := by
  unfold usableReq
  split
  · rename_i hzero
    rw [hzero, roundUpNat_of_dvd hps dvd_rfl]
    change _ = roundUpNat 1 _
    rw [roundUpNat, Nat.add_sub_cancel_left, Nat.div_self hps, Nat.one_mul]
  · rename_i hne
    have hpos : 1 ≤ reserve.toNat :=
      Nat.pos_iff_ne_zero.mpr fun h0 => hne (BitVec.eq_of_toNat_eq h0)
    rw [Nat.max_eq_left hpos]

/-- A request that the checks accept fits. -/
theorem not_refused (hps : (pageSize sys).toNat = 2 ^ k)
    (hg : g.Ok (pageSize sys) reserve commit guard) : ¬ Refused k reserve commit guard := by
  have hpow : 0 < (pageSize sys).toNat := pageSize_pos sys
  have husable := hg.usable_eq
  have htotal := hg.total_eq
  have hcommit := roundUpNat_lt (n := commit.toNat) hpow
  have hguard := hg.dvd_guard
  have hpos := hg.guard_pos
  have hle := hg.commit_le
  have hlt := g.total.isLt
  have hglt := guard.isLt
  rw [roundUpNat_usableReq hpow] at husable
  rw [hg.guard_eq] at htotal
  rw [hps] at hpow husable hcommit hguard hle
  have hround := roundUpNat_of_dvd hpow hguard
  rintro (rfl | hdvd | hg' | hu | hc | hsum)
  · exact absurd hpos (by decide)
  · exact hdvd hguard
  · omega
  · omega
  · omega
  · omega

/-- The protections after a reservation, for a commitment below the whole. -/
theorem prot_reserve (hcommit : g.commit.toNat ≤ g.total.toNat)
    (hfits : base.toNat + g.total.toNat < 2 ^ 64) (x : ℕ) :
    (w.reserve ⟨base, g.total⟩ g).prot x =
      if base.toNat + g.total.toNat - g.commit.toNat ≤ x ∧ x < base.toNat + g.total.toNat then
        .readWrite
      else if base.toNat ≤ x ∧ x < base.toNat + g.total.toNat then .none else w.prot x := by
  have haddr : (base + (g.total - g.commit)).toNat =
      base.toNat + g.total.toNat - g.commit.toNat := by
    bv_omega
  unfold World.reserve
  split
  · rename_i hzero
    have hz : g.commit.toNat = 0 := congrArg BitVec.toNat hzero
    rw [if_neg (by omega)]
    rfl
  · change (if InRange _ _ x then _ else if InRange _ _ x then _ else _) = _
    simp only [InRange, haddr]
    refine if_congr ?_ rfl rfl
    omega

/-- The registration changes no protection. -/
theorem record_prot {r : Reservation} {realloc : Bool} (h : w.record r realloc = some w') :
    w'.prot = w.prot := by
  unfold World.record at h
  split at h
  · obtain rfl := Option.some.inj h
    rfl
  · split at h
    · split at h
      · obtain rfl := Option.some.inj h
        rfl
      · cases h
    · obtain rfl := Option.some.inj h
      rfl

/-- The geometry of a reservation with accepted sizes. -/
theorem stackLaw_reserve (hk : 4 ≤ k) (hps : (pageSize sys).toNat = 2 ^ k)
    (hg : g.Ok (pageSize sys) reserve commit guard) (hbase : 2 ^ k ∣ base.toNat)
    (hfits : base.toNat + g.total.toNat < 2 ^ 64) :
    StackLaw k reserve commit guard base (base + g.guard) (base + g.total)
      (w.reserve ⟨base, g.total⟩ g).prot w.prot := by
  have hpow : 0 < 2 ^ k := Nat.two_pow_pos k
  have husable := hg.usable_eq
  have htotal := hg.total_eq
  have hcommit := hg.commit_eq
  rw [roundUpNat_usableReq (hps ▸ hpow), hps] at husable
  rw [hps, husable] at hcommit
  rw [hg.guard_eq, husable] at htotal
  have hspan : g.commit.toNat = commitSpan k reserve commit := hcommit
  have hle : commitSpan k reserve commit ≤ roundUpNat (max reserve.toNat 1) (2 ^ k) :=
    Nat.min_le_right _ _
  have hguardLow : (base + g.guard).toNat = base.toNat + guard.toNat := by
    rw [hg.guard_eq, BitVec.toNat_add, Nat.mod_eq_of_lt (by omega)]
  have htop : (base + g.total).toNat = base.toNat + g.total.toNat := by
    rw [BitVec.toNat_add, Nat.mod_eq_of_lt hfits]
  have hprot := prot_reserve (w := w) (g := g) (by omega) hfits
  refine ⟨hguardLow, by omega, ?_, fun x h0 h1 => ?_, by omega, fun x h0 h1 => ?_, fun x hx => ?_⟩
  · -- The base, the guard and the usable span are whole pages.
    have h16 : 16 ∣ 2 ^ k := Nat.pow_dvd_pow 2 hk
    have hguard : 2 ^ k ∣ guard.toNat := hps ▸ hg.dvd_guard
    rw [htop, htotal]
    exact h16.trans (Nat.dvd_add hbase (Nat.dvd_add hguard (dvd_roundUpNat _ _)))
  · rw [hprot, hspan]
    rw [htop] at h1 ⊢
    by_cases hx : base.toNat + g.total.toNat - commitSpan k reserve commit ≤ x
    · rw [if_pos ⟨hx, h1⟩]
      exact iff_of_true rfl hx
    · rw [if_neg (fun h => hx h.1), if_pos ⟨h0, h1⟩]
      exact iff_of_false Prot.noConfusion hx
  · rw [hprot, if_neg (by omega), if_pos ⟨h0, by omega⟩]
  · rw [hprot, if_neg (by omega), if_neg (by omega)]

/-- **The geometry of `mjs_stack_alloc`.** No operation on sizes wraps, but for the sum of a
rounding whose next operation undoes it; a stack has the sizes of the request, rounded to pages; and
a request that does not fit is refused before anything is mapped. -/
theorem stack_alloc_geometry (hk : 4 ≤ k) (hps : (pageSize sys).toNat = 2 ^ k)
    (hmap : MappedRange k sys reserve commit guard ans) (outs : Outs) (w : World) :
    (∀ op ∈ (stackTrace (pageSize sys) reserve commit guard).1, op.Wraps →
      op.Undone (pageSize sys)) ∧
    ((mjsStackAlloc sys reserve commit guard outs ans w).status = none →
      ∃ base guardLow top, ans.mmap = .ok base ∧
        (mjsStackAlloc sys reserve commit guard outs ans w).out =
          ⟨some base, some guardLow, some top⟩ ∧
        StackLaw k reserve commit guard base guardLow top
          (mjsStackAlloc sys reserve commit guard outs ans w).world.prot w.prot) ∧
    (Refused k reserve commit guard →
      mjsStackAlloc sys reserve commit guard outs ans w = ⟨some .EINVAL, outs, w, []⟩) := by
  have hpos := pageSize_pos sys
  refine ⟨exact_stackTrace hpos reserve commit guard, fun hok => ?_, fun href => ?_⟩
  · rcases mjsStackAlloc_cases sys reserve commit guard outs ans w with
      ⟨err, he⟩ | ⟨g, base, hg, hm, ⟨err, w₁, -, -, -, he⟩ | ⟨w', hrec, he⟩⟩
    · rw [he] at hok
      cases hok
    · rw [he] at hok
      cases hok
    · obtain ⟨hbase, hfits⟩ := hmap g base hg hm
      rw [he]
      refine ⟨base, _, _, hm, rfl, ?_⟩
      rw [record_prot hrec]
      exact stackLaw_reserve hk hps (stackGeometry_spec hpos hg) hbase hfits
  · have hnone : stackGeometry (pageSize sys) reserve commit guard = none := by
      by_contra hne
      obtain ⟨g, hg⟩ := Option.ne_none_iff_exists'.mp hne
      exact not_refused hps (stackGeometry_spec hpos hg) href
    unfold mjsStackAlloc
    rw [hnone]
    split <;> rfl

end Geometry

/-- A request of one page with a guard of one page, and a commitment of `2 ^ 64 - 4096` bytes. -/
def hugeCommit : Size := 0xFFFFFFFFFFFFF000

theorem stackGeometry_hugeCommit :
    stackGeometry (pageSize 4096) 4096 hugeCommit 4096 = some ⟨4096, 4096, 4096⟩ := by decide

theorem stack_alloc_geometry_hugeCommit : ∃ base guardLow top, okAnswers.mmap = .ok base ∧
    (mjsStackAlloc 4096 4096 hugeCommit 4096 ⟨some 0, some 0, some 0⟩ okAnswers emptyWorld).out =
      ⟨some base, some guardLow, some top⟩ ∧
    StackLaw 12 4096 hugeCommit 4096 base guardLow top
      (mjsStackAlloc 4096 4096 hugeCommit 4096 ⟨some 0, some 0, some 0⟩ okAnswers
        emptyWorld).world.prot emptyWorld.prot := by
  have hmap : MappedRange 12 4096 4096 hugeCommit 4096 okAnswers := by
    intro g base hg hm
    obtain rfl := Option.some.inj (stackGeometry_hugeCommit.symm.trans hg)
    obtain rfl := Except.ok.inj hm
    decide
  exact (stack_alloc_geometry (by decide) rfl hmap ⟨some 0, some 0, some 0⟩ emptyWorld).2.1
    (by decide)

/-- The request is accepted, and the sum of the rounding of its commitment wraps. -/
theorem stack_alloc_wraps :
    (mjsStackAlloc 4096 4096 hugeCommit 4096 ⟨some 0, some 0, some 0⟩ okAnswers emptyWorld).status =
        none ∧
      ¬ ∀ op ∈ (stackTrace (pageSize 4096) 4096 hugeCommit 4096).1, ¬ op.Wraps := by
  refine ⟨by decide, fun h => ?_⟩
  have hmem : SizeOp.add hugeCommit 4096 ∈ (stackTrace (pageSize 4096) 4096 hugeCommit 4096).1 := by
    decide
  exact h _ hmem (by decide)

end MojitoSys.Memory
