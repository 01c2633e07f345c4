import MojitoSys.Status
import MojitoSys.Util.BitMask
import Mathlib.Data.Finset.Insert

/-!
# Thread affinity

`affinity.mojo` and `mjs_cpu.c`: a set of CPUs is a mask of 64-bit words, where bit `i` of word `w`
selects CPU `64 * w + i`. The builders fill the words from a range of CPUs or from explicit words,
and `mjs_cpu_affinity_set_current` takes the bits out of any number of words again, one at a time,
for `sched_setaffinity`.

## Main definitions

* `CpuSet`, `CpuSet.fromRange`, `CpuSet.fromMask`, `CpuSet.contains`.
* `mjsCpuAffinitySetCurrent`, `setCurrentThreadAffinity`.

## Main results

* `cpu_mask`: the set that `sched_setaffinity` gets, and the requests that are refused.
-/

namespace MojitoSys.Thread

open Util

/-- `CPUSET_WORDS`. -/
def CPUSET_WORDS : ℕ := 8

/-- `CpuSet`: the words after the first `nwords` are zero. -/
structure CpuSet where
  words : ℕ → BitVec 64
  nwords : ℕ
  nwords_le : nwords ≤ CPUSET_WORDS
  words_eq : ∀ w, nwords ≤ w → words w = 0

/-! ### The builders -/

/-- The body of the loop of `CpuSet.from_range`. -/
def setCpu (words : ℕ → BitVec 64) (cpu : ℕ) : ℕ → BitVec 64 :=
  Function.update words (cpu / 64) (words (cpu / 64) ||| 1#64 <<< (cpu % 64))

/-- The loop of `CpuSet.from_range`. -/
def rangeWords (start stop : ℕ) : ℕ → BitVec 64 :=
  (List.range' start (stop - start)).foldl setCpu fun _ => 0

/-- The body of the loop of `CpuSet.from_mask`. -/
def addWord (s : (ℕ → BitVec 64) × ℕ) (r : BitVec 64) : (ℕ → BitVec 64) × ℕ :=
  (Function.update s.1 s.2 r, s.2 + 1)

/-- The loop of `CpuSet.from_mask`: the words, and the number of words. -/
def maskWords (first : BitVec 64) (rest : List (BitVec 64)) : (ℕ → BitVec 64) × ℕ :=
  rest.foldl addWord (Function.update (fun _ => 0) 0 first, 1)

section Words

variable {start stop w i : ℕ}

theorem setCpu_bit (words : ℕ → BitVec 64) (cpu : ℕ) : (setCpu words cpu w).getLsbD i = true ↔
    (words w).getLsbD i = true ∨ cpu / 64 = w ∧ cpu % 64 = i := by
  have hlt : cpu % 64 < 64 := Nat.mod_lt cpu (by decide)
  by_cases hw : w = cpu / 64
  · subst hw
    have hbit : (1#64 <<< (cpu % 64)).getLsbD i = true ↔ cpu % 64 = i := by
      rw [BitVec.getLsbD_shiftLeft, BitVec.getLsbD_one]
      simp
      omega
    rw [setCpu, Function.update_self, BitVec.getLsbD_or, Bool.or_eq_true, hbit]
    simp
  · rw [setCpu, Function.update_of_ne hw]
    simp [Ne.symm hw]

/-- The bits that the loop of `from_range` sets. -/
theorem rangeWords_bit : (rangeWords start stop w).getLsbD i = true ↔
    i < 64 ∧ start ≤ 64 * w + i ∧ 64 * w + i < stop := by
  have hloop := foldl_iff (P := fun words : ℕ → BitVec 64 => (words w).getLsbD i = true)
    setCpu_bit (List.range' start (stop - start)) fun _ => 0
  refine hloop.trans ⟨?_, ?_⟩
  · rintro (h | ⟨cpu, hcpu, rfl, rfl⟩)
    · simp at h
    · rw [List.mem_range'_1] at hcpu
      omega
  · rintro ⟨hi, hle, hlt⟩
    exact Or.inr ⟨64 * w + i, List.mem_range'_1.mpr (by omega), by omega, by omega⟩

theorem foldl_addWord (l rest : List (BitVec 64)) :
    rest.foldl addWord (fun w => l.getD w 0, l.length) =
      (fun w => (l ++ rest).getD w 0, (l ++ rest).length) := by
  induction rest generalizing l with
  | nil => simp
  | cons r rest ih =>
    have hword : addWord (fun w => l.getD w 0, l.length) r =
        (fun w => (l ++ [r]).getD w 0, (l ++ [r]).length) := by
      refine Prod.ext (funext fun w => ?_) (by simp [addWord])
      change Function.update (fun w => l.getD w 0) l.length r w = (l ++ [r]).getD w 0
      rcases Nat.lt_trichotomy w l.length with hw | rfl | hw
      · simp [Function.update_of_ne hw.ne, List.getElem?_append_left hw]
      · simp
      · have hlen : (l ++ [r]).length ≤ w := by
          rw [List.length_append]
          exact hw
        rw [Function.update_of_ne hw.ne', List.getD_eq_default _ _ hw.le,
          List.getD_eq_default _ _ hlen]
    rw [List.foldl_cons, hword, ih, List.append_assoc, List.singleton_append]

theorem maskWords_eq (first : BitVec 64) (rest : List (BitVec 64)) :
    maskWords first rest = (fun w => (first :: rest).getD w 0, (first :: rest).length) := by
  have hfirst : (Function.update (fun _ => 0) 0 first : ℕ → BitVec 64) =
      fun w => [first].getD w 0 := by
    funext w
    cases w <;> simp
  rw [maskWords, hfirst]
  exact foldl_addWord [first] rest

end Words

namespace CpuSet

/-- A new `CpuSet()`. -/
def empty : CpuSet := ⟨fun _ => 0, 0, Nat.zero_le _, fun _ _ => rfl⟩

/-- `CpuSet.from_range`. -/
def fromRange (start stop : ℤ) : Except Errno CpuSet :=
  if h : start < 0 ∨ stop < start ∨ stop > CPUSET_WORDS * 64 then .error .EINVAL
  else if stop = start then .ok empty
  else
    .ok
      { words := rangeWords start.toNat stop.toNat
        nwords := ((stop - 1) / 64 + 1).toNat
        nwords_le := by
          simp only [CPUSET_WORDS] at h ⊢
          omega
        words_eq := fun w hw => by
          refine BitVec.eq_of_getLsbD_eq fun i hi => Bool.eq_iff_iff.mpr ?_
          rw [rangeWords_bit]
          refine iff_of_false ?_ (by simp)
          omega }

/-- `CpuSet.from_mask`. -/
def fromMask (first : BitVec 64) (rest : List (BitVec 64)) : Except Errno CpuSet :=
  if h : 1 + rest.length > CPUSET_WORDS then .error .EINVAL
  else
    .ok
      { words := (maskWords first rest).1
        nwords := (maskWords first rest).2
        nwords_le := by
          rw [maskWords_eq, List.length_cons]
          omega
        words_eq := fun w hw => by
          rw [maskWords_eq] at hw ⊢
          exact List.getD_eq_default _ _ hw }

/-- `CpuSet.contains`. -/
def contains (set : CpuSet) (cpu : ℤ) : Bool :=
  if cpu < 0 ∨ cpu ≥ CPUSET_WORDS * 64 then false
  else
    if (cpu / 64).toNat ≥ set.nwords then false
    else set.words (cpu / 64).toNat >>> (cpu % 64).toNat &&& 1#64 != 0

/-- `CpuSet.is_empty`. -/
def isEmpty (set : CpuSet) : Bool := (List.range set.nwords).all fun w => set.words w == 0

/-- `CpuSet.__copyinit__`. -/
def copy (existing : CpuSet) : CpuSet where
  words w := if w < existing.nwords then existing.words w else 0
  nwords := existing.nwords
  nwords_le := existing.nwords_le
  words_eq _ hw := if_neg (Nat.not_lt.mpr hw)

theorem copy_eq (set : CpuSet) : set.copy = set := by
  have hwords : set.copy.words = set.words := by
    funext w
    by_cases hw : w < set.nwords
    · exact if_pos hw
    · exact (if_neg hw).trans (set.words_eq w (Nat.not_lt.mp hw)).symm
  cases set
  simp only [copy, CpuSet.mk.injEq, and_true] at hwords ⊢
  exact hwords

variable {set : CpuSet}

/-- The set contains the CPUs of the bits of its words. -/
theorem contains_iff {cpu : ℤ} : set.contains cpu = true ↔
    0 ≤ cpu ∧ (set.words (cpu / 64).toNat).getLsbD (cpu % 64).toNat = true := by
  have hzero (h : set.nwords ≤ (cpu / 64).toNat) :
      ¬ (set.words (cpu / 64).toNat).getLsbD (cpu % 64).toNat = true := by
    simp [set.words_eq _ h]
  have hle := set.nwords_le
  unfold contains
  split_ifs with hrange hw
  · refine iff_of_false id fun ⟨h0, hbit⟩ => hzero ?_ hbit
    simp only [CPUSET_WORDS] at hrange hle
    omega
  · exact iff_of_false id fun h => hzero hw h.2
  · rw [shift_and_one (by decide)]
    exact (and_iff_right (not_lt.mp fun h => hrange (Or.inl h))).symm

/-- The CPU of a bit. -/
theorem contains_cpu {w i : ℕ} (hi : i < 64) :
    set.contains (64 * w + i : ℕ) = true ↔ (set.words w).getLsbD i = true := by
  have hw : ((64 * w + i : ℕ) : ℤ) / 64 = w := by omega
  have hb : ((64 * w + i : ℕ) : ℤ) % 64 = i := by omega
  rw [contains_iff, hw, hb, Int.toNat_natCast, Int.toNat_natCast]
  exact and_iff_right (Int.natCast_nonneg _)

/-- The CPUs of a range. -/
theorem contains_of_fromRange {start stop : ℤ} (h : fromRange start stop = .ok set) (cpu : ℤ) :
    set.contains cpu = true ↔ start ≤ cpu ∧ cpu < stop := by
  unfold fromRange at h
  split_ifs at h with hrange hempty
  · obtain rfl := Except.ok.inj h
    rw [contains_iff]
    simp [empty]
    omega
  · obtain rfl := Except.ok.inj h
    rw [contains_iff, rangeWords_bit]
    omega

/-- The CPUs of explicit words. -/
theorem contains_of_fromMask {first : BitVec 64} {rest : List (BitVec 64)}
    (h : fromMask first rest = .ok set) {w i : ℕ} (hi : i < 64) :
    set.contains (64 * w + i : ℕ) = true ↔ ((first :: rest).getD w 0).getLsbD i = true := by
  unfold fromMask at h
  split_ifs at h
  obtain rfl := Except.ok.inj h
  refine (contains_cpu hi).trans ?_
  change ((maskWords first rest).1 w).getLsbD i = true ↔ _
  rw [maskWords_eq]

theorem fromRange_eq_error {start stop : ℤ} {e : Errno} : fromRange start stop = .error e ↔
    e = .EINVAL ∧ (start < 0 ∨ stop < start ∨ stop > CPUSET_WORDS * 64) := by
  unfold fromRange
  split_ifs with hrange
  · simp [hrange, eq_comm]
  · simp [hrange]
  · simp [hrange]

theorem fromMask_eq_error {first : BitVec 64} {rest : List (BitVec 64)} {e : Errno} :
    fromMask first rest = .error e ↔ e = .EINVAL ∧ 1 + rest.length > CPUSET_WORDS := by
  unfold fromMask
  split_ifs with hlen
  · simp [hlen, eq_comm]
  · simp [hlen]

theorem isEmpty_iff : set.isEmpty = true ↔ ∀ cpu, set.contains cpu = false := by
  rw [isEmpty, List.all_eq_true]
  simp only [List.mem_range, beq_iff_eq, ← Bool.not_eq_true]
  constructor
  · intro h cpu hcpu
    obtain ⟨-, hbit⟩ := contains_iff.mp hcpu
    by_cases hw : (cpu / 64).toNat < set.nwords
    · simp [h _ hw] at hbit
    · simp [set.words_eq _ (Nat.not_lt.mp hw)] at hbit
  · intro h w _
    refine BitVec.eq_of_getLsbD_eq fun i hi => ?_
    have hbit := mt (contains_cpu hi).mpr (h (64 * w + i : ℕ))
    simpa using hbit

end CpuSet

/-! ### The call of the system -/

/-- A call `sched_setaffinity(0, setsize, set)`. -/
structure SetAffinity where
  setsize : ℕ
  set : Finset ℕ

/-- `CPU_ALLOC_SIZE`: the bytes of a set of `count` bits, in whole words. -/
def CPU_ALLOC_SIZE (count : ℕ) : ℕ := (count + 63) / 64 * 8

/-- `CPU_SET_S`: a CPU beyond the bytes of the set is left out. -/
def CPU_SET_S (cpu setsize : ℕ) (set : Finset ℕ) : Finset ℕ :=
  if cpu / 8 < setsize then insert cpu set else set

/-- The loops of `mjs_cpu_affinity_set_current`. -/
def maskCpus (mask : ℕ → BitVec 64) (nwords setsize : ℕ) : Finset ℕ :=
  (List.range nwords).foldl
    (fun set w => foldBits (fun set b => CPU_SET_S (w * 64 + b) setsize set) set (mask w)) ∅

/-- `mjs_cpu_affinity_set_current` on Linux, with the call that it makes; `alloc` is whether
`CPU_ALLOC` succeeds, and `answer` is what `sched_setaffinity` returns. -/
def mjsCpuAffinitySetCurrent (mask : Option (ℕ → BitVec 64)) (nwords : BitVec 32) (alloc : Bool)
    (answer : Status) : Status × Option SetAffinity :=
  match mask with
  | none => (some .EINVAL, none)
  | some mask =>
    if nwords = 0 then (some .EINVAL, none)
    else if nwords.toNat > (2 ^ 64 - 1) / 8 then (some .EINVAL, none)
    else if alloc = false then (some .ENOMEM, none)
    else
      let setsize := CPU_ALLOC_SIZE (nwords.toNat * 64)
      (answer, some ⟨setsize, maskCpus mask nwords.toNat setsize⟩)

/-- The loop of `set_current_thread_affinity`; `stack` is what the buffer holds before. -/
def copyWords (set : CpuSet) (stack : ℕ → BitVec 64) : ℕ → BitVec 64 :=
  (List.range set.nwords).foldl (fun cell w => Function.update cell w (set.words w)) stack

/-- `set_current_thread_affinity`, which raises every status but `0`. -/
def setCurrentThreadAffinity (set : CpuSet) (stack : ℕ → BitVec 64) (alloc : Bool)
    (answer : Status) : Status × Option SetAffinity :=
  if set.isEmpty then (some .EINVAL, none)
  else
    mjsCpuAffinitySetCurrent (some (copyWords set stack)) (BitVec.ofNat 32 set.nwords) alloc answer

section Call

variable {mask : Option (ℕ → BitVec 64)} {nwords : BitVec 32} {alloc : Bool} {answer : Status}
  {set : CpuSet} {stack : ℕ → BitVec 64} {call : SetAffinity}

theorem mem_CPU_SET_S (c setsize : ℕ) (cpus : Finset ℕ) {cpu : ℕ} :
    cpu ∈ CPU_SET_S c setsize cpus ↔ cpu ∈ cpus ∨ c / 8 < setsize ∧ cpu = c := by
  unfold CPU_SET_S
  split_ifs with h
  · rw [Finset.mem_insert]
    tauto
  · simp [h]

/-- The CPUs that the loops add. No CPU of the mask is beyond the bytes of the set. -/
theorem mem_maskCpus {m : ℕ → BitVec 64} {n cpu : ℕ} :
    cpu ∈ maskCpus m n (CPU_ALLOC_SIZE (n * 64)) ↔
      ∃ w i, w < n ∧ (m w).getLsbD i = true ∧ cpu = 64 * w + i := by
  have hword (cpus : Finset ℕ) (w : ℕ) :=
    foldBits_iff (P := fun cpus : Finset ℕ => cpu ∈ cpus)
      (fun cpus b => mem_CPU_SET_S (w * 64 + b) (CPU_ALLOC_SIZE (n * 64)) cpus) cpus (m w)
  refine (foldl_iff (P := fun cpus : Finset ℕ => cpu ∈ cpus) hword (List.range n) ∅).trans ⟨?_, ?_⟩
  · rintro (h | ⟨w, hw, i, hi, -, rfl⟩)
    · simp at h
    · exact ⟨w, i, List.mem_range.mp hw, hi, by omega⟩
  · rintro ⟨w, i, hw, hi, rfl⟩
    have hlt : i < 64 := BitVec.lt_of_getLsbD hi
    refine Or.inr ⟨w, List.mem_range.mpr hw, i, hi, ?_, by omega⟩
    rw [CPU_ALLOC_SIZE]
    omega

theorem copyWords_eq {w : ℕ} (hw : w < set.nwords) : copyWords set stack w = set.words w := by
  have hloop (n : ℕ) : ∀ w < n, (List.range n).foldl
      (fun cell w => Function.update cell w (set.words w)) stack w = set.words w := by
    induction n with
    | zero => exact fun w hw => absurd hw (Nat.not_lt_zero w)
    | succ n ih =>
      intro w hw
      rw [List.range_succ, List.foldl_append, List.foldl_cons, List.foldl_nil]
      by_cases hwn : w = n
      · rw [hwn, Function.update_self]
      · rw [Function.update_of_ne hwn]
        exact ih w (by omega)
  exact hloop set.nwords w hw

/-- The call that `mjs_cpu_affinity_set_current` makes. -/
theorem affinity_call : (mjsCpuAffinitySetCurrent mask nwords alloc answer).2 = some call ↔
    ∃ m, mask = some m ∧ nwords ≠ 0 ∧ alloc = true ∧
      call = ⟨CPU_ALLOC_SIZE (nwords.toNat * 64),
        maskCpus m nwords.toNat (CPU_ALLOC_SIZE (nwords.toNat * 64))⟩ := by
  have hlt := nwords.isLt
  unfold mjsCpuAffinitySetCurrent
  cases mask with
  | none => simp
  | some m =>
    simp only [Option.some.injEq, exists_eq_left']
    split_ifs with hzero hsize halloc
    · exact iff_of_false (by simp) fun h => h.1 hzero
    · omega
    · exact iff_of_false (by simp) fun h => by simp [halloc] at h
    · have htrue : alloc = true := by simpa using halloc
      rw [Option.some.injEq, eq_comm]
      exact ⟨fun h => ⟨hzero, htrue, h⟩, fun h => h.2.2⟩

theorem nwords_toNat (set : CpuSet) : (BitVec.ofNat 32 set.nwords).toNat = set.nwords := by
  have hle := set.nwords_le
  simp only [CPUSET_WORDS] at hle
  exact (BitVec.toNat_ofNat ..).trans (Nat.mod_eq_of_lt (by omega))

/-- The set that a `CpuSet` becomes. -/
theorem affinity_call_of_set
    (h : (setCurrentThreadAffinity set stack alloc answer).2 = some call) (cpu : ℕ) :
    cpu ∈ call.set ↔ set.contains cpu = true := by
  unfold setCurrentThreadAffinity at h
  split_ifs at h
  obtain ⟨m, hm, -, -, rfl⟩ := affinity_call.mp h
  obtain rfl := Option.some.inj hm
  rw [nwords_toNat]
  refine mem_maskCpus.trans ⟨?_, fun hcpu => ?_⟩
  · rintro ⟨w, i, hw, hi, rfl⟩
    rw [copyWords_eq hw] at hi
    exact (CpuSet.contains_cpu (BitVec.lt_of_getLsbD hi)).mpr hi
  · have hsplit : cpu = 64 * (cpu / 64) + cpu % 64 := by omega
    rw [hsplit, CpuSet.contains_cpu (Nat.mod_lt cpu (by decide))] at hcpu
    by_cases hw : cpu / 64 < set.nwords
    · exact ⟨cpu / 64, cpu % 64, hw, (copyWords_eq hw).symm ▸ hcpu, hsplit⟩
    · simp [set.words_eq _ (Nat.not_lt.mp hw)] at hcpu

/-- A set that is not empty gets to the system. -/
theorem exists_affinity_call (h : ∃ cpu, set.contains cpu = true) :
    ∃ call, (setCurrentThreadAffinity set stack true answer).2 = some call := by
  obtain ⟨cpu, hcpu⟩ := h
  have hempty : ¬ set.isEmpty = true := fun hempty => by
    simp [CpuSet.isEmpty_iff.mp hempty cpu] at hcpu
  have hpos : 0 < set.nwords := Nat.pos_of_ne_zero fun h0 => hempty (by simp [CpuSet.isEmpty, h0])
  rw [setCurrentThreadAffinity, if_neg hempty]
  refine ⟨_, affinity_call.mpr ⟨_, rfl, fun h0 => hpos.ne' ?_, rfl, rfl⟩⟩
  rw [← nwords_toNat set, h0]
  rfl

end Call

/-- The CPU masks. `mjs_cpu_affinity_set_current` hands the CPUs of the bits of the mask to
`sched_setaffinity`, if there is a mask with words and memory for the set; a `CpuSet` gets there as
the set of the CPUs that it contains; the two builders make the sets that they are asked for, and
refuse what is out of range. -/
theorem cpu_mask :
    (∀ mask nwords alloc answer,
      ((∃ call, (mjsCpuAffinitySetCurrent mask nwords alloc answer).2 = some call) ↔
        mask ≠ none ∧ nwords ≠ 0 ∧ alloc = true) ∧
      ∀ m call, (mjsCpuAffinitySetCurrent (some m) nwords alloc answer).2 = some call →
        ∀ cpu, cpu ∈ call.set ↔
          ∃ w i, w < nwords.toNat ∧ (m w).getLsbD i = true ∧ cpu = 64 * w + i) ∧
      (∀ (set : CpuSet) stack answer,
        ((∃ cpu, set.contains cpu = true) ↔
          ∃ call, (setCurrentThreadAffinity set stack true answer).2 = some call) ∧
        ∀ alloc call, (setCurrentThreadAffinity set stack alloc answer).2 = some call →
          ∀ cpu : ℕ, cpu ∈ call.set ↔ set.contains cpu = true) ∧
      (∀ start stop e, CpuSet.fromRange start stop = .error e ↔
        e = .EINVAL ∧ (start < 0 ∨ stop < start ∨ stop > CPUSET_WORDS * 64)) ∧
      (∀ start stop set, CpuSet.fromRange start stop = .ok set →
        ∀ cpu : ℤ, set.contains cpu = true ↔ start ≤ cpu ∧ cpu < stop) ∧
      (∀ first rest e, CpuSet.fromMask first rest = .error e ↔
        e = .EINVAL ∧ 1 + rest.length > CPUSET_WORDS) ∧
      ∀ first rest set, CpuSet.fromMask first rest = .ok set → ∀ w i : ℕ, i < 64 →
        (set.contains (64 * w + i : ℕ) = true ↔
          ((first :: rest).getD w 0).getLsbD i = true) := by
  refine ⟨fun mask nwords alloc answer => ⟨⟨?_, ?_⟩, ?_⟩, fun set stack answer => ⟨⟨?_, ?_⟩, ?_⟩,
    fun _ _ _ => CpuSet.fromRange_eq_error, fun _ _ _ => CpuSet.contains_of_fromRange,
    fun _ _ _ => CpuSet.fromMask_eq_error, fun _ _ _ h _ _ => CpuSet.contains_of_fromMask h⟩
  · rintro ⟨call, h⟩
    obtain ⟨m, rfl, hn, halloc, -⟩ := affinity_call.mp h
    exact ⟨Option.some_ne_none m, hn, halloc⟩
  · rintro ⟨hmask, hn, halloc⟩
    obtain ⟨m, rfl⟩ := Option.ne_none_iff_exists'.mp hmask
    exact ⟨_, affinity_call.mpr ⟨m, rfl, hn, halloc, rfl⟩⟩
  · intro m call h cpu
    obtain ⟨m', hm, -, -, rfl⟩ := affinity_call.mp h
    obtain rfl := Option.some.inj hm
    exact mem_maskCpus
  · exact exists_affinity_call
  · rintro ⟨call, h⟩
    by_contra hnone
    have hempty : set.isEmpty = true := CpuSet.isEmpty_iff.mpr fun cpu => by
      simpa using fun hcpu => hnone ⟨cpu, hcpu⟩
    rw [setCurrentThreadAffinity, if_pos hempty] at h
    cases h
  · exact fun alloc call => affinity_call_of_set

/-- A range across a word boundary. -/
theorem cpu_mask_boundary : ∃ set, CpuSet.fromRange 60 70 = .ok set ∧ set.contains 69 = true ∧
    ∃ call, (setCurrentThreadAffinity set (fun _ => 0) true none).2 = some call ∧
      64 ∈ call.set ∧ 70 ∉ call.set := by
  obtain ⟨-, hset, -, hrange, -⟩ := cpu_mask
  have hcpus := hrange 60 70 _ rfl
  obtain ⟨call, hcall⟩ := (hset _ (fun _ => 0) none).1.mp ⟨60, (hcpus 60).mpr (by decide)⟩
  have hcall' := (hset _ _ _).2 true call hcall
  refine ⟨_, rfl, (hcpus 69).mpr (by decide), call, hcall, ?_, fun h => ?_⟩
  · exact (hcall' 64).mpr ((hcpus 64).mpr (by decide))
  · exact absurd ((hcpus 70).mp ((hcall' 70).mp h)) (by decide)

end MojitoSys.Thread
