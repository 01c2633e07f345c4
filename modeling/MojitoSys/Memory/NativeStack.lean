import MojitoSys.Memory.StackRegistry
import MojitoSys.Memory.VirtualMemory

/-!
# The wrapper `NativeStack`

`stack.mojo` owns a reservation of the stack allocator and keeps an account of its committed bytes.
The allocator rounds and clamps the initial commitment in unsigned arithmetic; the wrapper computes
the same number again, with the same bits, and then takes the minimum as signed numbers. `grow`
commits the pages below the committed span through `mjs_vm_commit`, where the account says that the
span ends.

An `Int` is a 64-bit word read as a signed number. An `mprotect` that fails changes no page: the
span of a `grow` lies in one mapping, all of it `PROT_NONE`.

## Main definitions

* `mjsPageSize`, `World.vmCommit`.
* `NativeStack`, `NativeStack.create`, `NativeStack.grow`.
* `Grows`: the runs of `grow`.
* `NativeStack.Accounted`, `Accounting`: what the account promises, in every run.

## Main results

* `committed_ofOuts`: the account after `create`.
* `StackInv.grow`: a `grow` keeps the account and the protections in step.
* `accounting_iff`: the initial commitments for which the account is right.
-/

namespace MojitoSys.Memory

open Util

/-- `mjs_page_size`, for the value of `sysconf(_SC_PAGESIZE)`. -/
def mjsPageSize (sys : BitVec 64) : BitVec 64 :=
  if 0 < sys.toInt ∧ sys.toInt ≤ 2147483647 then sys else 4096

/-- What `mjs_vm_commit` does to the protections, for an `mprotect` that succeeds or fails. -/
def World.vmCommit (w : World) (addr : Addr) (len : Size) (mprotect : Status) : Status × World :=
  match VirtualMemory.mjsVmCommit (fun _ => mprotect) addr len with
  | (_, some err) => (some err, w)
  | (calls, none) => (none, calls.foldl (fun w call => w.commit call.addr call.len) w)

/-- `min` on `Int`. -/
def minInt (a b : BitVec 64) : BitVec 64 := if b.toInt < a.toInt then b else a

/-- A `NativeStack` value. -/
structure NativeStack where
  base : BitVec 64
  guardLow : BitVec 64
  top : BitVec 64
  guardBytes : BitVec 64
  reservedBytes : BitVec 64
  committedBytes : BitVec 64
  deriving DecidableEq, Repr

/-- How a `grow` ends. -/
structure Grown where
  status : Status
  stack : NativeStack
  world : World

namespace NativeStack

/-- The value that `create` makes of the out-parameters of `mjs_stack_alloc`. -/
def ofOuts (sys initialCommitBytes guardBytes base guardLow top : BitVec 64) : NativeStack :=
  let ps := mjsPageSize sys
  let committedReq := (initialCommitBytes + ps - 1) &&& ~~~(ps - 1)
  { base := base
    guardLow := guardLow
    top := top
    guardBytes := guardBytes
    reservedBytes := top - base
    committedBytes := minInt committedReq (top - guardLow) }

/-- `create`, on three scratch cells. -/
def create (sys reserveBytes initialCommitBytes guardBytes : BitVec 64) (ans : AllocAnswers)
    (w : World) : Except Errno NativeStack × World :=
  let r := mjsStackAlloc sys reserveBytes initialCommitBytes guardBytes ⟨some 0, some 0, some 0⟩
    ans w
  match r.status with
  | some err => (.error err, r.world)
  | none =>
    (.ok (ofOuts sys initialCommitBytes guardBytes (r.out.base.getD 0) (r.out.guardLow.getD 0)
      (r.out.top.getD 0)), r.world)

/-- `grow`. -/
def grow (sys : BitVec 64) (s : NativeStack) (additionalBytes : BitVec 64)
    (mprotect : Option Errno) (w : World) : Grown :=
  let ps := mjsPageSize sys
  if additionalBytes = 0 then ⟨none, s, w⟩
  else if additionalBytes.toInt < 0 then ⟨some .EINVAL, s, w⟩
  else if additionalBytes &&& (ps - 1) ≠ 0 then ⟨some .EINVAL, s, w⟩
  else if additionalBytes.toInt > ((s.top - s.guardLow) - s.committedBytes).toInt then
    ⟨some .ENOMEM, s, w⟩
  else
    match w.vmCommit (s.top - s.committedBytes - additionalBytes) additionalBytes mprotect with
    | (some err, w) => ⟨some err, s, w⟩
    | (none, w) => ⟨none, { s with committedBytes := s.committedBytes + additionalBytes }, w⟩

end NativeStack

/-! ### The account -/

/-- The runs of `grow` on a value, with any arguments. -/
inductive Grows (sys : BitVec 64) (s₀ : NativeStack) (w₀ : World) : NativeStack → World → Prop
  | refl : Grows sys s₀ w₀ s₀ w₀
  | grow {s : NativeStack} {w : World} (additionalBytes : BitVec 64) (mprotect : Option Errno)
      (h : Grows sys s₀ w₀ s w) :
      Grows sys s₀ w₀ (s.grow sys additionalBytes mprotect w).stack
        (s.grow sys additionalBytes mprotect w).world

/-- The committed bytes lie in the usable span, and the read-write pages of the reservation are
those at its top. -/
structure NativeStack.Accounted (s : NativeStack) (w : World) : Prop where
  nonneg : 0 ≤ s.committedBytes.toInt
  le_usable : s.committedBytes.toInt ≤ s.top.toInt - s.guardLow.toInt
  readWrite : ∀ x : ℕ, s.base.toNat ≤ x → x < s.top.toNat →
    (w.prot x = .readWrite ↔ s.top.toInt - s.committedBytes.toInt ≤ x)

/-- The contract of the account: it is right after every run of `grow`, a `grow` changes no
protection outside the usable span, and a `grow` that raises changes nothing. -/
def Accounting (sys : BitVec 64) (s₀ : NativeStack) (w₀ : World) : Prop :=
  ∀ s w, Grows sys s₀ w₀ s w → s.Accounted w ∧
    ∀ additionalBytes mprotect,
      (∀ x : ℕ, ¬ (s.guardLow.toNat ≤ x ∧ x < s.top.toNat) →
        (s.grow sys additionalBytes mprotect w).world.prot x = w.prot x) ∧
      ((s.grow sys additionalBytes mprotect w).status ≠ none →
        (s.grow sys additionalBytes mprotect w).stack = s ∧
          (s.grow sys additionalBytes mprotect w).world = w)

/-! ### The calls -/

section Calls

variable {sys reserve commit guard : BitVec 64} {ans : AllocAnswers}
variable {s : NativeStack} {w w' : World}

/-- Both sides read the page size of the system. -/
theorem page_size_eq {k : ℕ} (hsys : sys.toNat = 2 ^ k) (hk : k ≤ 30) :
    pageSize sys = sys ∧ mjsPageSize sys = sys := by
  have hpos := Nat.two_pow_pos k
  have hle : 2 ^ k ≤ 2 ^ 30 := Nat.pow_le_pow_right (by decide) hk
  have hint : sys.toInt = sys.toNat := toInt_of_lt (by omega)
  constructor
  · rw [pageSize, if_pos (by omega)]
  · rw [mjsPageSize, if_pos (by omega)]

/-- A successful `create` holds the reservation that `mjs_stack_alloc` registered. -/
theorem create_cases (h : NativeStack.create sys reserve commit guard ans w = (.ok s, w')) :
    ∃ g base, stackGeometry (pageSize sys) reserve commit guard = some g ∧ ans.mmap = .ok base ∧
      (w.reserve ⟨base, g.total⟩ g).record ⟨base, g.total⟩ ans.realloc = some w' ∧
      s = .ofOuts sys commit guard base (base + g.guard) (base + g.total) := by
  unfold NativeStack.create at h
  rcases mjsStackAlloc_cases sys reserve commit guard ⟨some 0, some 0, some 0⟩ ans w with
    ⟨err, he⟩ | ⟨g, base, hg, hm, ⟨err, w₁, -, -, -, he⟩ | ⟨w₁, hrec, he⟩⟩
  · rw [he] at h
    cases h
  · rw [he] at h
    cases h
  · rw [he] at h
    cases h
    exact ⟨g, base, hg, hm, hrec, rfl⟩

/-- A commitment fails and changes nothing, or makes the range read-write. -/
theorem World.vmCommit_cases (w : World) (addr : Addr) {len : Size} (hlen : len ≠ 0)
    (mprotect : Status) : (∃ err, w.vmCommit addr len mprotect = (some err, w)) ∨
      w.vmCommit addr len mprotect = (none, w.commit addr len) := by
  unfold World.vmCommit VirtualMemory.mjsVmCommit VirtualMemory.mjsVmRange
  by_cases haddr : addr = 0
  · rw [if_pos haddr]
    exact Or.inl ⟨_, rfl⟩
  · rw [if_neg haddr, if_neg hlen]
    cases mprotect with
    | some err => exact Or.inl ⟨err, rfl⟩
    | none => exact Or.inr rfl

/-- A `grow` raises and changes nothing, does nothing, or commits the span below. -/
theorem grow_cases (sys : BitVec 64) (s : NativeStack) (additional : BitVec 64)
    (mprotect : Option Errno) (w : World) :
    (∃ err, s.grow sys additional mprotect w = ⟨some err, s, w⟩) ∨
    s.grow sys additional mprotect w = ⟨none, s, w⟩ ∨
    (0 ≤ additional.toInt ∧
      additional.toInt ≤ ((s.top - s.guardLow) - s.committedBytes).toInt ∧
      s.grow sys additional mprotect w =
        ⟨none, { s with committedBytes := s.committedBytes + additional },
          w.commit (s.top - s.committedBytes - additional) additional⟩) := by
  unfold NativeStack.grow
  simp only
  split
  · exact Or.inr (Or.inl rfl)
  split
  · exact Or.inl ⟨_, rfl⟩
  split
  · exact Or.inl ⟨_, rfl⟩
  split
  · exact Or.inl ⟨_, rfl⟩
  rename_i hne hneg _ hroom
  rcases w.vmCommit_cases (s.top - s.committedBytes - additional) hne mprotect with
    ⟨err, he⟩ | he
  · rw [he]
    exact Or.inl ⟨err, rfl⟩
  · rw [he]
    exact Or.inr (Or.inr ⟨Int.not_lt.mp hneg, Int.not_lt.mp hroom, rfl⟩)

end Calls

/-! ### The invariant -/

/-- The geometry of the value, and the protections of its reservation. -/
structure StackInv (s : NativeStack) (w : World) : Prop where
  guardLow_pos : 0 < s.guardLow.toNat
  base_le : s.base.toNat ≤ s.guardLow.toNat
  top_lt : s.top.toNat < 2 ^ 63
  committed_le : s.guardLow.toNat + s.committedBytes.toNat ≤ s.top.toNat
  readWrite : ∀ x, s.base.toNat ≤ x → x < s.top.toNat →
    (w.prot x = .readWrite ↔ s.top.toNat ≤ x + s.committedBytes.toNat)

section Inv

variable {sys reserve commit guard : BitVec 64} {ans : AllocAnswers}
variable {s : NativeStack} {w w' : World}

theorem StackInv.accounted (h : StackInv s w) : s.Accounted w := by
  obtain ⟨-, -, htop, hcommitted, hrw⟩ := h
  have hc := toInt_of_lt (x := s.committedBytes) (by omega)
  have ht := toInt_of_lt htop
  have hg := toInt_of_lt (x := s.guardLow) (by omega)
  refine ⟨by omega, by omega, fun x hx hx' => ?_⟩
  rw [hrw x hx hx']
  omega

/-- The span that a `grow` commits: directly below the committed one, above the guard. -/
theorem StackInv.span (h : StackInv s w) {additional : BitVec 64} (hadd : 0 ≤ additional.toInt)
    (hroom : additional.toInt ≤ ((s.top - s.guardLow) - s.committedBytes).toInt) :
    s.guardLow.toNat + s.committedBytes.toNat + additional.toNat ≤ s.top.toNat ∧
      (s.top - s.committedBytes - additional).toNat =
        s.top.toNat - s.committedBytes.toNat - additional.toNat ∧
      (s.committedBytes + additional).toNat = s.committedBytes.toNat + additional.toNat := by
  obtain ⟨-, -, htop, hcommitted, -⟩ := h
  have hlt := toNat_lt_of_nonneg hadd
  have hremaining : ((s.top - s.guardLow) - s.committedBytes).toNat =
      s.top.toNat - s.guardLow.toNat - s.committedBytes.toNat := by bv_omega
  rw [toInt_of_lt hlt, toInt_of_lt (by omega), hremaining] at hroom
  have hle : s.guardLow.toNat + s.committedBytes.toNat + additional.toNat ≤ s.top.toNat := by omega
  refine ⟨hle, ?_, ?_⟩ <;> bv_omega

/-- A `grow` keeps the account and the protections in step. -/
theorem StackInv.grow (h : StackInv s w) (additional : BitVec 64) (mprotect : Option Errno) :
    StackInv (s.grow sys additional mprotect w).stack (s.grow sys additional mprotect w).world := by
  rcases grow_cases sys s additional mprotect w with ⟨err, he⟩ | he | ⟨hadd, hroom, he⟩
  · rw [he]
    exact h
  · rw [he]
    exact h
  · rw [he]
    obtain ⟨hle, hstart, hsum⟩ := h.span hadd hroom
    refine ⟨h.guardLow_pos, h.base_le, h.top_lt, by simp only [hsum]; omega, fun x hx hx' => ?_⟩
    simp only at hx hx'
    have hold := h.readWrite x hx hx'
    simp only [World.commit, setProt, hstart, hsum]
    by_cases hin : InRange (s.top.toNat - s.committedBytes.toNat - additional.toNat)
        additional.toNat x
    · rw [if_pos hin]
      unfold InRange at hin
      exact ⟨fun _ => by omega, fun _ => rfl⟩
    · rw [if_neg hin, hold]
      unfold InRange at hin
      omega

/-- A `grow` changes the protection of usable addresses only. -/
theorem StackInv.grow_outside (h : StackInv s w) (additional : BitVec 64) (mprotect : Option Errno)
    {x : ℕ} (hx : ¬ (s.guardLow.toNat ≤ x ∧ x < s.top.toNat)) :
    (s.grow sys additional mprotect w).world.prot x = w.prot x := by
  rcases grow_cases sys s additional mprotect w with ⟨err, he⟩ | he | ⟨hadd, hroom, he⟩
  · rw [he]
  · rw [he]
  · rw [he]
    obtain ⟨hle, hstart, -⟩ := h.span hadd hroom
    simp only [World.commit, setProt, hstart]
    refine if_neg fun hin => hx ?_
    unfold InRange at hin
    omega

theorem StackInv.accounting (h : StackInv s w) : Accounting sys s w := by
  have hrun : ∀ s' w', Grows sys s w s' w' → StackInv s' w' := by
    intro s' w' hg
    induction hg with
    | refl => exact h
    | grow additional mprotect _ ih => exact ih.grow additional mprotect
  intro s' w' hg
  have hinv := hrun s' w' hg
  refine ⟨hinv.accounted, fun additional mprotect =>
    ⟨fun x hx => hinv.grow_outside additional mprotect hx, fun hraise => ?_⟩⟩
  rcases grow_cases sys s' additional mprotect w' with ⟨err, he⟩ | he | ⟨-, -, he⟩
  · rw [he]
    exact ⟨rfl, rfl⟩
  · rw [he] at hraise
    exact absurd rfl hraise
  · rw [he] at hraise
    exact absurd rfl hraise

end Inv

/-! ### The account after `create` -/

/-- What the operating system promises of the `mmap`: a range in the lower half of the address
space, where user memory lies, that is not at `NULL`. -/
def UserRange (sys reserve commit guard : BitVec 64) (ans : AllocAnswers) : Prop :=
  ∀ g base, stackGeometry (pageSize sys) reserve commit guard = some g → ans.mmap = .ok base →
    base ≠ 0 ∧ base.toNat + g.total.toNat < 2 ^ 63

section Create

variable {sys reserve commit guard : BitVec 64} {ans : AllocAnswers}
variable {s : NativeStack} {w w' : World}
  {g : Geometry} {base : Addr} {k : ℕ}

/-- The wrapper computes the rounded commitment of the allocator, and takes the minimum signed. -/
theorem committed_ofOuts (hsys : sys.toNat = 2 ^ k) (hk : k ≤ 30)
    (hg : g.Ok sys reserve commit guard) (hfits : base.toNat + g.total.toNat < 2 ^ 63) :
    (roundUpNat commit.toNat sys.toNat < 2 ^ 63 →
      (NativeStack.ofOuts sys commit guard base (base + g.guard) (base + g.total)).committedBytes =
        g.commit) ∧
    (2 ^ 63 ≤ roundUpNat commit.toNat sys.toNat →
      (NativeStack.ofOuts sys commit guard base (base + g.guard)
        (base + g.total)).committedBytes.toInt < 0) := by
  have hreq := toNat_round_mask hsys hg.commit_le
  have husable : (base + g.total - (base + g.guard)).toNat = g.usable.toNat := by
    have htotal := hg.total_eq
    bv_omega
  have hlt : g.usable.toNat < 2 ^ 63 := by
    have htotal := hg.total_eq
    omega
  simp only [NativeStack.ofOuts, (page_size_eq hsys hk).2]
  generalize (commit + sys - 1) &&& ~~~(sys - 1) = req at hreq
  generalize base + g.total - (base + g.guard) = usable at husable
  rw [← hreq]
  have hint := toInt_of_lt (x := usable) (by omega)
  constructor
  · intro hsmall
    have hreqInt := toInt_of_lt hsmall
    apply BitVec.eq_of_toNat_eq
    rw [hg.commit_eq, ← hreq, minInt]
    split <;> omega
  · intro hbig
    have hneg : req.toInt < 0 := BitVec.toInt_neg_iff.mpr (by omega)
    rw [minInt, if_neg (by omega)]
    exact hneg

/-- The protections of a new reservation. -/
theorem reserve_readWrite (w : World) (hg : g.Ok sys reserve commit guard)
    (hfits : base.toNat + g.total.toNat < 2 ^ 63) {x : ℕ} (hx : base.toNat ≤ x)
    (hx' : x < base.toNat + g.total.toNat) :
    (w.reserve ⟨base, g.total⟩ g).prot x = .readWrite ↔
      base.toNat + g.total.toNat ≤ x + g.commit.toNat := by
  have hcommit : g.commit.toNat ≤ g.total.toNat := by
    have htotal := hg.total_eq
    have hc := hg.commit_eq
    omega
  have hmap : setProt w.prot base.toNat g.total.toNat .none x = .none := if_pos ⟨hx, hx'⟩
  unfold World.reserve
  split
  · rename_i h0
    have hzero : g.commit.toNat = 0 := by rw [h0]; rfl
    simp only [World.mmap, hmap, reduceCtorEq, false_iff]
    omega
  · have hstart : (base + (g.total - g.commit)).toNat =
        base.toNat + g.total.toNat - g.commit.toNat := by bv_omega
    simp only [World.commit, World.mmap]
    rw [setProt, hstart, hmap]
    by_cases hin : InRange (base.toNat + g.total.toNat - g.commit.toNat) g.commit.toNat x
    · rw [if_pos hin]
      unfold InRange at hin
      exact ⟨fun _ => by omega, fun _ => rfl⟩
    · rw [if_neg hin]
      unfold InRange at hin
      simp only [reduceCtorEq, false_iff]
      omega

/-- A value whose account starts at the commitment of the allocator. -/
theorem stackInv_of_create (hsys : sys.toNat = 2 ^ k) (hk : k ≤ 30)
    (hg : g.Ok sys reserve commit guard) (hbase : base ≠ 0)
    (hfits : base.toNat + g.total.toNat < 2 ^ 63)
    (hrec : (w.reserve ⟨base, g.total⟩ g).record ⟨base, g.total⟩ ans.realloc = some w')
    (hsmall : roundUpNat commit.toNat sys.toNat < 2 ^ 63) :
    StackInv (.ofOuts sys commit guard base (base + g.guard) (base + g.total)) w' := by
  have hcommitted := (committed_ofOuts hsys hk hg hfits).1 hsmall
  have htotal := hg.total_eq
  have hc := hg.commit_eq
  have hpos : 0 < g.guard.toNat := by
    rw [hg.guard_eq]
    exact hg.guard_pos
  have hlow : (base + g.guard).toNat = base.toNat + g.guard.toNat := by bv_omega
  have htop : (base + g.total).toNat = base.toNat + g.total.toNat := by bv_omega
  obtain ⟨-, -, hprot⟩ := record_entries hrec hbase
  refine ⟨?_, ?_, ?_, ?_, fun x hx hx' => ?_⟩
  · simp only [NativeStack.ofOuts, hlow]
    omega
  · simp only [NativeStack.ofOuts, hlow]
    omega
  · simp only [NativeStack.ofOuts, htop]
    omega
  · rw [hcommitted]
    simp only [NativeStack.ofOuts, hlow, htop]
    omega
  · simp only [NativeStack.ofOuts, htop] at hx hx' ⊢
    rw [hprot, reserve_readWrite w hg hfits hx hx']
    simp only [NativeStack.ofOuts] at hcommitted
    rw [hcommitted]

end Create

/-- **The accounting of `NativeStack`.** For a value that `create` made, on a page size that is a
power of two, the account is right in every run of `grow` exactly when the initial commitment is
not negative and at least a page below `2 ^ 63`. -/
theorem accounting_iff {sys reserve commit guard : BitVec 64} {ans : AllocAnswers} {k : ℕ}
    {s : NativeStack} {w w' : World} (hsys : sys.toNat = 2 ^ k) (hk : k ≤ 30)
    (hmap : UserRange sys reserve commit guard ans)
    (h : NativeStack.create sys reserve commit guard ans w = (.ok s, w')) :
    Accounting sys s w' ↔ 0 ≤ commit.toInt ∧ commit.toInt ≤ 2 ^ 63 - sys.toInt := by
  obtain ⟨g, base, hg, hm, hrec, rfl⟩ := create_cases h
  obtain ⟨hbase, hfits⟩ := hmap g base hg hm
  have hps := (page_size_eq hsys hk).1
  rw [hps] at hg
  have hpos : 0 < sys.toNat := hsys ▸ Nat.two_pow_pos k
  have hok := stackGeometry_spec hpos hg
  have hle : sys.toNat ≤ 2 ^ 30 := hsys ▸ Nat.pow_le_pow_right (by decide) hk
  have hdvd : sys.toNat ∣ 2 ^ 63 := hsys ▸ Nat.pow_dvd_pow 2 (by omega)
  have hround := roundUpNat_lt_iff (n := commit.toNat) hpos hdvd
  have hint := toInt_of_lt (x := sys) (by omega)
  constructor
  · intro hacc
    have hnonneg := (hacc _ _ .refl).1.nonneg
    by_contra hno
    have hbig : 2 ^ 63 ≤ roundUpNat commit.toNat sys.toNat := by
      rw [← not_lt, hround]
      intro hsmall
      have hcommit := toInt_of_lt (x := commit) (by omega)
      exact hno ⟨by omega, by omega⟩
    have hneg := (committed_ofOuts hsys hk hok hfits).2 hbig
    omega
  · rintro ⟨hnonneg, hmax⟩
    have hcommit := toInt_of_lt (toNat_lt_of_nonneg hnonneg)
    have hsmall : roundUpNat commit.toNat sys.toNat < 2 ^ 63 := hround.mpr (by omega)
    exact (stackInv_of_create hsys hk hok hbase hfits hrec hsmall).accounting

/-- The allocator, with a `PROT_NONE` mapping of two pages at `0x21000` that is not its own. -/
def neighbourWorld : World :=
  ⟨[], 0, [], fun x => if InRange 0x21000 0x2000 x then .none else .unmapped⟩

/-- A stack of sixteen pages with two of them committed. -/
theorem accounting_two_pages :
    ∃ s w, NativeStack.create 4096 0x10000 0x2000 0x1000 okAnswers neighbourWorld = (.ok s, w) ∧
      Accounting 4096 s w := by
  have hmap : UserRange 4096 0x10000 0x2000 0x1000 okAnswers := by
    intro g base hg hm
    cases hm
    cases Option.some.inj ((show stackGeometry (pageSize 4096) 0x10000 0x2000 0x1000 =
      some ⟨0x1000, 0x10000, 0x2000⟩ by decide +kernel).symm.trans hg)
    exact ⟨by decide, by decide⟩
  obtain ⟨s, w, h⟩ : ∃ s w,
      NativeStack.create 4096 0x10000 0x2000 0x1000 okAnswers neighbourWorld = (.ok s, w) :=
    ⟨_, _, rfl⟩
  exact ⟨s, w, h, (accounting_iff (k := 12) (by decide) (by decide) hmap h).mpr (by decide)⟩

/-- An initial commitment of `-8192`: the allocator commits the whole usable span, the account says
`-8192` bytes, and a `grow` by two pages makes the mapping above the reservation read-write. -/
theorem accounting_fails :
    ∃ s w, NativeStack.create 4096 0x10000 (-8192) 0x1000 okAnswers neighbourWorld = (.ok s, w) ∧
      s.committedBytes.toInt = -8192 ∧ s.top = 0x21000 ∧
      (s.grow 4096 0x2000 none w).status = none ∧ w.prot 0x21000 = .none ∧
      (s.grow 4096 0x2000 none w).world.prot 0x21000 = .readWrite ∧ ¬ Accounting 4096 s w := by
  refine ⟨_, _, rfl, by decide +kernel, by decide +kernel, by decide +kernel, by decide +kernel,
    by decide +kernel, fun hacc => ?_⟩
  have hnonneg := (hacc _ _ .refl).1.nonneg
  exact absurd hnonneg (by decide +kernel)

end MojitoSys.Memory
