import MojitoSys.Status
import MojitoSys.Util.Ledger
import MojitoSys.Util.Numeral
import Mathlib.Algebra.Group.Int.Defs
import Mathlib.Data.Finset.Card
import Mathlib.Data.Finset.Image

/-!
# Counting physical cores

`mjs_cpu_physical` of `mjs_cpu.c` on Linux: a loop over the entries of a directory of the kernel,
which reads two numbers from files for each processor, and collects the different pairs in an array
that doubles when it is full. The names and the files are scanned by the C library, whose `%ld`
skips white space, takes a sign and saturates. `cpu_physical_count` of `thread/cpu_info.mojo` makes
an optional number of it.

The directory is the list of its names in any order, and the files are a function from the paths;
the memory that `realloc` may refuse is asked for by the number of pairs.

## Main definitions

* `scanLong`, `isCpuName`, `readCore`: the scanning of names and files.
* `CoreArray`: the pairs collected, all different, with the capacity that they asked for.
* `mjsCpuPhysical`, `cpuPhysicalCount`.
* `Shows`: a directory that shows the cores of some processors.
* `CpuPhysicalLaw`: what the count says.

## Main results

* `scan_cases`: what the loop collects, and when it runs out of memory.
* `cpu_physical_law`: the law holds.
-/

namespace MojitoSys.Thread

open Util Util.Ledger

/-! ### The scanning of the C library -/

/-- `isspace`. -/
def isSpace (b : UInt8) : Bool := b = 32 || (9 ≤ b && b ≤ 13)

/-- A `long`, with the saturation of `strtol`. -/
def toLong (v : ℤ) : ℤ := max (-2 ^ 63) (min v (2 ^ 63 - 1))

/-- The sign before the digits: whether it is a minus, and what follows. -/
def scanSign : List UInt8 → Bool × List UInt8
  | 45 :: bs => (true, bs)
  | 43 :: bs => (false, bs)
  | bs => (false, bs)

/-- The conversion `%ld`: the number, and what follows it. -/
def scanLong (bs : List UInt8) : Option (ℤ × List UInt8) :=
  let signed := scanSign (bs.dropWhile isSpace)
  let digits := signed.2.takeWhile IsDigit
  if digits = [] then none
  else
    let v : ℤ := (digits.foldl (fun v b => v * 10 + digitValue b) 0 : ℕ)
    some (toLong (if signed.1 then -v else v), signed.2.dropWhile IsDigit)

/-- The bytes of a text of the source. -/
def ascii (s : String) : List UInt8 := s.toList.map fun c => UInt8.ofNat c.toNat

/-- `sscanf(name, "cpu%ld%c", ..)` returns `1`: a number follows, and nothing else. -/
def isCpuName (name : List UInt8) : Bool :=
  (ascii "cpu").isPrefixOf name &&
    match scanLong (name.drop 3) with
    | some (_, []) => true
    | _ => false

/-! ### The files -/

/-- What the call acquires. -/
inductive CpuResource
  | dir
  | file (path : List UInt8)
  | array (cap : ℕ)
  deriving DecidableEq

/-- The log of the call. -/
abbrev CpuLog := List (Entry CpuResource)

/-- The contents of the files that can be opened. -/
abbrev Files := List UInt8 → Option (List UInt8)

/-- A path in a buffer of 256 bytes, which cuts it. -/
def topologyPath (name : List UInt8) (leaf : String) : List UInt8 :=
  (ascii "/sys/devices/system/cpu/" ++ name ++ ascii "/topology/" ++ ascii leaf).take 255

/-- `read_sysfs_long`. -/
def readSysfsLong (fs : Files) (path : List UInt8) : Option ℤ × CpuLog :=
  match fs path with
  | none => (none, [])
  | some content =>
    ((scanLong content).map Prod.fst, [.acquire (.file path), .release (.file path)])

/-- The two numbers of a processor; the second file is not opened if the first one fails. -/
def readCore (fs : Files) (name : List UInt8) : Option (ℤ × ℤ) × CpuLog :=
  match readSysfsLong fs (topologyPath name "physical_package_id") with
  | (none, log) => (none, log)
  | (some pkg, log) =>
    match readSysfsLong fs (topologyPath name "core_id") with
    | (none, log') => (none, log ++ log')
    | (some core, log') => (some (pkg, core), log ++ log')

/-! ### The array -/

/-- The next capacity of a full array. -/
def nextCap (cap : ℕ) : ℕ := if cap ≠ 0 then cap * 2 else 64

/-- The capacity of the array when it has `n` pairs. -/
def arrayCap : ℕ → ℕ
  | 0 => 0
  | n + 1 => if n = arrayCap n then nextCap (arrayCap n) else arrayCap n

/-- `realloc` gives all the memory that `n` pairs ask for. -/
def Grants (realloc : ℕ → Bool) (n : ℕ) : Prop :=
  ∀ m < n, m = arrayCap m → realloc (nextCap m) = true

/-- `pairs`, `n` and `cap`: the pairs differ, and the capacity is the one that they asked for. -/
structure CoreArray where
  pairs : List (ℤ × ℤ)
  nodup : pairs.Nodup

namespace CoreArray

/-- `cap`. -/
def cap (a : CoreArray) : ℕ := arrayCap a.pairs.length

/-- No array. -/
def empty : CoreArray := ⟨[], List.nodup_nil⟩

/-- Store a new pair after the others. -/
def push (a : CoreArray) (p : ℤ × ℤ) (hp : p ∉ a.pairs) : CoreArray :=
  ⟨a.pairs ++ [p], List.nodup_append.mpr ⟨a.nodup, List.nodup_singleton p, fun _ hx _ hy h =>
    hp (List.mem_singleton.mp hy ▸ h ▸ hx)⟩⟩

/-- The block of the array. -/
def block (a : CoreArray) : List CpuResource := if a.cap = 0 then [] else [.array a.cap]

end CoreArray

/-! ### The loop -/

/-- The variables of the loop. -/
structure Scan where
  array : CoreArray
  undetermined : Bool
  log : CpuLog

/-- The body of the loop; the error is the log of a call that `realloc` has ended. -/
def scanEntry (fs : Files) (realloc : ℕ → Bool) (s : Scan) (name : List UInt8) :
    Except CpuLog Scan :=
  if isCpuName name = false then .ok s
  else
    match readCore fs name with
    | (none, log) => .ok { s with undetermined := true, log := s.log ++ log }
    | (some p, log) =>
      let log := s.log ++ log
      if hp : p ∈ s.array.pairs then .ok { s with log := log }
      else if s.array.pairs.length = s.array.cap then
        if realloc (nextCap s.array.cap) = false then
          .error (log ++ (s.array.block ++ [CpuResource.dir]).map .release)
        else
          .ok { s with
            array := s.array.push p hp
            log := log ++ s.array.block.map .release ++ [.acquire (.array (nextCap s.array.cap))] }
      else .ok { s with array := s.array.push p hp, log := log }

/-- How a call ends: its status, `*out`, and its log. -/
structure CpuEnded where
  status : Status
  out : Option Int32
  log : CpuLog

/-- `mjs_cpu_physical` on Linux, when `opendir` fails or gives a directory with some names; `out` is
what the pointer points to, or `none` for `NULL`. -/
def mjsCpuPhysical (dir : Option (List (List UInt8))) (fs : Files) (realloc : ℕ → Bool)
    (out : Option Int32) : CpuEnded :=
  if out = none then ⟨some .ENOTSUP, out, []⟩
  else
    match dir with
    | none => ⟨some .ENOTSUP, out, []⟩
    | some names =>
      match names.foldlM (scanEntry fs realloc) ⟨.empty, false, [.acquire .dir]⟩ with
      | .error log => ⟨some .ENOTSUP, out, log⟩
      | .ok s =>
        let log := s.log ++ (CpuResource.dir :: s.array.block).map .release
        let n := s.array.pairs.length
        if s.undetermined ∨ n = 0 ∨ 2147483647 < n then ⟨some .ENOTSUP, out, log⟩
        else ⟨none, some (Int32.ofNat n), log⟩

/-- `cpu_physical_count`: the error, or the optional number; `cell` is what the stack holds. -/
def cpuPhysicalCount (dir : Option (List (List UInt8))) (fs : Files) (realloc : ℕ → Bool)
    (cell : Int32) : Except Errno (Option Int32) :=
  match (mjsCpuPhysical dir fs realloc (some cell)).status with
  | none => .ok (mjsCpuPhysical dir fs realloc (some cell)).out
  | some e => if e ≠ .other 45 ∧ e ≠ .other 95 then .error e else .ok none

/-! ### What the count says -/

/-- The different pairs that the files of some names have. -/
def coresOf (fs : Files) (names : List (List UInt8)) : Finset (ℤ × ℤ) :=
  ((names.filter isCpuName).filterMap fun name => (readCore fs name).1).toFinset

/-- A directory shows the cores of a set of processors: its `cpuN` entries are theirs, in any order
and among other entries, and their files have the decimal numerals of package and core. -/
structure Shows (names : List (List UInt8)) (fs : Files) (cpus : Finset ℕ) (core : ℕ → ℕ × ℕ) :
    Prop where
  entries : ∀ name, name ∈ names ∧ isCpuName name = true ↔
    ∃ n ∈ cpus, name = ascii "cpu" ++ numeral n
  packageId : ∀ n ∈ cpus, fs (topologyPath (ascii "cpu" ++ numeral n) "physical_package_id") =
    some (numeral (core n).1 ++ [10])
  coreId : ∀ n ∈ cpus, fs (topologyPath (ascii "cpu" ++ numeral n) "core_id") =
    some (numeral (core n).2 ++ [10])
  fits : ∀ n ∈ cpus, (core n).1 < 2 ^ 63 ∧ (core n).2 < 2 ^ 63

/-- A call succeeds exactly if the directory can be opened, the two numbers of every processor can
be read, there is a core, and the memory and the range of the result suffice; the result is then the
number of different cores. It fails only with `ENOTSUP`, which the wrapper takes for an unknown
number, and leaves `*out` alone. It gives back everything it acquired. The order of the directory is
irrelevant, and a directory that shows the cores of some processors is counted right. -/
structure CpuPhysicalLaw (dir : Option (List (List UInt8))) (fs : Files) (realloc : ℕ → Bool)
    (out : Int32) : Prop where
  status : (mjsCpuPhysical dir fs realloc (some out)).status = none ↔ ∃ names, dir = some names ∧
    (∀ name ∈ names, isCpuName name = true → (readCore fs name).1 ≠ none) ∧
    (coresOf fs names).Nonempty ∧ (coresOf fs names).card ≤ 2147483647 ∧
    Grants realloc (coresOf fs names).card
  result : ∀ names, dir = some names → (mjsCpuPhysical dir fs realloc (some out)).status = none →
    (mjsCpuPhysical dir fs realloc (some out)).out =
      some (Int32.ofNat (coresOf fs names).card)
  failure : ∀ e, (mjsCpuPhysical dir fs realloc (some out)).status = some e →
    e = .ENOTSUP ∧ (mjsCpuPhysical dir fs realloc (some out)).out = some out
  wrapper : cpuPhysicalCount dir fs realloc out =
    .ok (if (mjsCpuPhysical dir fs realloc (some out)).status = none then
      (mjsCpuPhysical dir fs realloc (some out)).out else none)
  balanced : Balanced (mjsCpuPhysical dir fs realloc (some out)).log
  order : ∀ names names', dir = some names → names.Perm names' →
    (mjsCpuPhysical (some names') fs realloc (some out)).status =
        (mjsCpuPhysical dir fs realloc (some out)).status ∧
      (mjsCpuPhysical (some names') fs realloc (some out)).out =
        (mjsCpuPhysical dir fs realloc (some out)).out
  shows : ∀ names cpus core, dir = some names → Shows names fs cpus core → cpus.Nonempty →
    (cpus.image core).card ≤ 2147483647 → Grants realloc (cpus.image core).card →
    cpuPhysicalCount dir fs realloc out = .ok (some (Int32.ofNat (cpus.image core).card))

/-! ### Scanning numerals -/

section ScanNumerals

variable {n : ℕ} {rest : List UInt8}

theorem foldl_numeral (n : ℕ) :
    (numeral n).foldl (fun v b => v * 10 + digitValue b) 0 = n := by
  induction n using numeral_induction with
  | digit b hb => rw [numeral_digit hb, List.foldl_cons, List.foldl_nil, Nat.zero_mul, Nat.zero_add]
  | append n b hn hb ih =>
    rw [← numeral_append hn hb, List.foldl_append, ih, List.foldl_cons, List.foldl_nil]

/-- A digit is neither white space nor a sign. -/
theorem not_isSpace_of_isDigit {b : UInt8} (h : IsDigit b) :
    isSpace b = false ∧ b ≠ 45 ∧ b ≠ 43 := by
  obtain ⟨h48, -⟩ := isDigit_iff.mp h
  have hne {c : UInt8} (hc : c.toNat < 48) : b ≠ c := fun hbc => by
    rw [hbc] at h48
    omega
  refine ⟨?_, hne (by decide), hne (by decide)⟩
  have h13 : ¬ b ≤ 13 := by
    rw [UInt8.le_iff_toNat_le]
    change ¬ b.toNat ≤ 13
    omega
  simp [isSpace, hne (c := 32) (by decide), h13]

theorem scanSign_cons {b : UInt8} {bs : List UInt8} (h45 : b ≠ 45) (h43 : b ≠ 43) :
    scanSign (b :: bs) = (false, b :: bs) := by
  rw [scanSign]
  · rintro bs' ⟨⟩
    exact h45 rfl
  · rintro bs' ⟨⟩
    exact h43 rfl

/-- A numeral is scanned as its number, up to the next byte that is not a digit. -/
theorem scanLong_numeral (hrest : ∀ b ∈ rest.head?, ¬ IsDigit b) :
    scanLong (numeral n ++ rest) = some (toLong n, rest) := by
  obtain ⟨b, bs, hcons⟩ := List.exists_cons_of_ne_nil (numeral_ne_nil n)
  have hall : ∀ b ∈ numeral n, decide (IsDigit b) = true := fun b hb =>
    decide_eq_true (isDigit_of_mem_numeral hb)
  obtain ⟨hspace, h45, h43⟩ :=
    not_isSpace_of_isDigit (isDigit_of_mem_numeral (hcons ▸ List.mem_cons_self : b ∈ numeral n))
  have hsign : scanSign ((numeral n ++ rest).dropWhile isSpace) = (false, numeral n ++ rest) := by
    rw [hcons, List.cons_append, List.dropWhile_cons_of_neg (by simp [hspace]),
      scanSign_cons h45 h43]
  have hnone : rest.takeWhile (fun b => decide (IsDigit b)) = [] ∧
      rest.dropWhile (fun b => decide (IsDigit b)) = rest := by
    cases rest with
    | nil => exact ⟨rfl, rfl⟩
    | cons c cs =>
      have hc : ¬ decide (IsDigit c) = true := by
        rw [decide_eq_true_iff]
        exact hrest c rfl
      exact ⟨List.takeWhile_cons_of_neg hc, List.dropWhile_cons_of_neg hc⟩
  simp only [scanLong, hsign, List.takeWhile_append_of_pos hall, List.dropWhile_append_of_pos hall,
    hnone, List.append_nil, numeral_ne_nil, if_false, foldl_numeral, Bool.false_eq_true]

theorem toLong_of_lt (h : n < 2 ^ 63) : toLong n = n := by
  rw [toLong]
  omega

/-- The names of the processors. -/
theorem isCpuName_numeral (n : ℕ) : isCpuName (ascii "cpu" ++ numeral n) = true := by
  have hdrop : (ascii "cpu" ++ numeral n).drop 3 = numeral n ++ [] := by
    rw [List.append_nil]
    exact List.drop_left' rfl
  have hprefix : (ascii "cpu").isPrefixOf (ascii "cpu" ++ numeral n) = true :=
    List.isPrefixOf_iff_prefix.mpr (List.prefix_append _ _)
  have hscan := @scanLong_numeral n [] (by simp)
  rw [isCpuName, hprefix, hdrop, hscan]
  rfl

example : isCpuName (ascii "cpu12") = true ∧ isCpuName (ascii "cpu1x") = false ∧
    isCpuName (ascii "cpuidle") = false := by decide

end ScanNumerals

/-! ### The loop over the directory -/

section Loop

variable {fs : Files} {realloc : ℕ → Bool} {names rest : List (List UInt8)} {name : List UInt8}
  {s s' : Scan} {log : CpuLog}

theorem nextCap_ne_zero (cap : ℕ) : nextCap cap ≠ 0 := by
  rw [nextCap]
  split_ifs <;> omega

/-- The block of a full array is replaced by a larger one, and another one is kept. -/
theorem CoreArray.push_block (a : CoreArray) {p : ℤ × ℤ} (hp : p ∉ a.pairs) :
    (a.push p hp).block = if a.pairs.length = a.cap then [.array (nextCap a.cap)] else a.block := by
  have hlen : (a.push p hp).pairs.length = a.pairs.length + 1 := List.length_append
  have hcap : (a.push p hp).cap = if a.pairs.length = a.cap then nextCap a.cap else a.cap := by
    rw [cap, hlen, arrayCap]
    rfl
  rw [block, hcap]
  split_ifs with hfull hzero hzero
  · exact absurd hzero (nextCap_ne_zero _)
  · rfl
  · rw [block, if_pos hzero]
  · rw [block, if_neg hzero]

theorem readSysfsLong_balanced (fs : Files) (path : List UInt8) :
    Balanced (readSysfsLong fs path).2 := by
  rw [readSysfsLong]
  split
  · exact Balanced.nil
  · exact (leaves_acquire [CpuResource.file path]).release (List.Perm.refl _)

theorem readCore_balanced (fs : Files) (name : List UInt8) : Balanced (readCore fs name).2 := by
  have hpkg := readSysfsLong_balanced fs (topologyPath name "physical_package_id")
  have hcore := readSysfsLong_balanced fs (topologyPath name "core_id")
  rw [readCore]
  split
  · rename_i heq
    rwa [heq] at hpkg
  · rename_i heq
    rw [heq] at hpkg
    split
    · rename_i heq'
      rw [heq'] at hcore
      exact hpkg.append hcore
    · rename_i heq'
      rw [heq'] at hcore
      exact hpkg.append hcore

/-- What the loop has collected after some names. -/
structure ScanInv (fs : Files) (realloc : ℕ → Bool) (names : List (List UInt8)) (s : Scan) :
    Prop where
  cores : s.array.pairs.toFinset = coresOf fs names
  undetermined : s.undetermined = true ↔
    ∃ name ∈ names, isCpuName name = true ∧ (readCore fs name).1 = none
  grants : Grants realloc s.array.pairs.length
  log : Leaves s.log (s.array.block ++ [.dir])

theorem ScanInv.card (h : ScanInv fs realloc names s) :
    s.array.pairs.length = (coresOf fs names).card := by
  rw [← h.cores, List.toFinset_card_of_nodup s.array.nodup]

theorem mem_coresOf {p : ℤ × ℤ} : p ∈ coresOf fs names ↔
    ∃ name ∈ names, isCpuName name = true ∧ (readCore fs name).1 = some p := by
  simp [coresOf, and_assoc]

/-- One more name. -/
theorem mem_coresOf_append {p : ℤ × ℤ} : p ∈ coresOf fs (names ++ [name]) ↔
    p ∈ coresOf fs names ∨ isCpuName name = true ∧ (readCore fs name).1 = some p := by
  rw [mem_coresOf, mem_coresOf]
  simp only [List.mem_append, List.mem_singleton, or_and_right, exists_or, exists_eq_left]

theorem Grants.mono {m n : ℕ} (h : Grants realloc n) (hm : m ≤ n) : Grants realloc m :=
  fun k hk => h k (Nat.lt_of_lt_of_le hk hm)

theorem Grants.succ {n : ℕ} (h : Grants realloc n)
    (hfull : n = arrayCap n → realloc (nextCap n) = true) : Grants realloc (n + 1) := by
  intro m hm hcap
  rcases Nat.lt_succ_iff_lt_or_eq.mp hm with hlt | rfl
  · exact h m hlt hcap
  · exact hfull hcap

/-- One round of the loop. -/
theorem ScanInv.scanEntry (h : ScanInv fs realloc names s) (name : List UInt8) :
    (∃ s', Thread.scanEntry fs realloc s name = .ok s' ∧
        ScanInv fs realloc (names ++ [name]) s') ∨
      ∃ log, Thread.scanEntry fs realloc s name = .error log ∧ Balanced log ∧
        ¬ Grants realloc (coresOf fs (names ++ [name])).card := by
  have hbalanced := readCore_balanced fs name
  rw [Thread.scanEntry]
  by_cases hname : isCpuName name = false
  · -- Another entry of the directory.
    refine Or.inl ⟨s, if_pos hname, ?_, ?_, h.grants, h.log⟩
    · ext p
      rw [h.cores, mem_coresOf_append]
      simp [hname]
    · rw [h.undetermined]
      simp [List.mem_append, or_and_right, exists_or, hname]
  rw [if_neg hname]
  rw [Bool.not_eq_false] at hname
  cases hread : readCore fs name with
  | mk core log =>
    rw [hread] at hbalanced
    cases core with
    | none =>
      -- A number could not be read.
      refine Or.inl ⟨_, rfl, ?_, ?_, h.grants, h.log.append_balanced hbalanced⟩
      · ext p
        rw [h.cores, mem_coresOf_append]
        simp [hread]
      · simp only [true_iff]
        exact ⟨name, by simp, hname, by rw [hread]⟩
    | some p =>
      have hcores : coresOf fs (names ++ [name]) = insert p (coresOf fs names) := by
        ext q
        rw [mem_coresOf_append, Finset.mem_insert]
        simp only [hname, hread, true_and, Option.some.injEq]
        rw [or_comm, eq_comm]
      have hundetermined : s.undetermined = true ↔
          ∃ name' ∈ names ++ [name], isCpuName name' = true ∧ (readCore fs name').1 = none := by
        rw [h.undetermined]
        simp [List.mem_append, or_and_right, exists_or, hread]
      have hlog := h.log.append_balanced hbalanced
      simp only
      by_cases hp : p ∈ s.array.pairs
      · -- The pair is known.
        rw [dif_pos hp]
        refine Or.inl ⟨_, rfl, ?_, hundetermined, h.grants, hlog⟩
        have hmem : p ∈ coresOf fs names := by rwa [← h.cores, List.mem_toFinset]
        rw [hcores, Finset.insert_eq_of_mem hmem]
        exact h.cores
      rw [dif_neg hp]
      have hpush : (s.array.push p hp).pairs.toFinset = coresOf fs (names ++ [name]) := by
        rw [hcores, ← h.cores]
        ext q
        simp [CoreArray.push]
      have hlen : (s.array.push p hp).pairs.length = s.array.pairs.length + 1 := List.length_append
      by_cases hfull : s.array.pairs.length = s.array.cap
      · rw [if_pos hfull]
        by_cases hmem : realloc (nextCap s.array.cap) = false
        · -- There is no memory for the array.
          rw [if_pos hmem]
          refine Or.inr ⟨_, rfl, hlog.release (List.Perm.refl _), fun hgrants => ?_⟩
          have hcard : (coresOf fs (names ++ [name])).card = s.array.pairs.length + 1 := by
            rw [← hpush, List.toFinset_card_of_nodup (s.array.push p hp).nodup, hlen]
          rw [hcard] at hgrants
          have hgrant := hgrants _ (Nat.lt_succ_self _) hfull
          rw [hfull, hmem] at hgrant
          cases hgrant
        · -- The array grows.
          rw [if_neg hmem]
          refine Or.inl ⟨_, rfl, hpush, hundetermined, ?_, ?_⟩
          · rw [hlen]
            refine h.grants.succ fun _ => ?_
            rw [hfull]
            exact Bool.eq_true_of_not_eq_false hmem
          · have hgrown := (hlog.release_part s.array.block).append
              (leaves_acquire [CpuResource.array (nextCap s.array.cap)])
            rw [s.array.push_block hp, if_pos hfull]
            exact hgrown.perm List.perm_append_comm
      · -- There is room in the array.
        rw [if_neg hfull]
        refine Or.inl ⟨_, rfl, hpush, hundetermined, ?_, ?_⟩
        · rw [hlen]
          exact h.grants.succ fun hcap => absurd hcap hfull
        · rw [s.array.push_block hp, if_neg hfull]
          exact hlog

/-- What the loop collects, and when it runs out of memory. -/
theorem scan_cases (h : ScanInv fs realloc names s) (rest : List (List UInt8)) :
    (∃ s', rest.foldlM (Thread.scanEntry fs realloc) s = .ok s' ∧
        ScanInv fs realloc (names ++ rest) s') ∨
      ∃ log, rest.foldlM (Thread.scanEntry fs realloc) s = .error log ∧ Balanced log ∧
        ¬ Grants realloc (coresOf fs (names ++ rest)).card := by
  induction rest generalizing names s with
  | nil =>
    rw [List.append_nil]
    exact Or.inl ⟨s, rfl, h⟩
  | cons name rest ih =>
    rw [List.foldlM_cons, ← List.singleton_append, ← List.append_assoc]
    rcases h.scanEntry name with ⟨s', hs', h'⟩ | ⟨log, hlog, hbalanced, hgrants⟩
    · rw [hs']
      exact ih h'
    · rw [hlog]
      refine Or.inr ⟨log, rfl, hbalanced, fun hall => hgrants (hall.mono ?_)⟩
      refine Finset.card_le_card fun p hp => ?_
      rw [mem_coresOf] at hp ⊢
      obtain ⟨name', hmem, hp⟩ := hp
      exact ⟨name', List.mem_append_left rest hmem, hp⟩

end Loop

/-! ### The law -/

section Law

variable {fs : Files} {realloc : ℕ → Bool} {names : List (List UInt8)} {out : Int32}

/-- When a call on a directory succeeds. -/
def Countable (fs : Files) (realloc : ℕ → Bool) (names : List (List UInt8)) : Prop :=
  (∀ name ∈ names, isCpuName name = true → (readCore fs name).1 ≠ none) ∧
    (coresOf fs names).Nonempty ∧ (coresOf fs names).card ≤ 2147483647 ∧
    Grants realloc (coresOf fs names).card

/-- The end of a call on a directory. -/
theorem mjsCpuPhysical_cases (fs : Files) (realloc : ℕ → Bool) (names : List (List UInt8))
    (out : Int32) :
    let r := mjsCpuPhysical (some names) fs realloc (some out)
    Balanced r.log ∧
      ((Countable fs realloc names ∧ r.status = none ∧
          r.out = some (Int32.ofNat (coresOf fs names).card)) ∨
        (¬ Countable fs realloc names ∧ r.status = some .ENOTSUP ∧ r.out = some out)) := by
  intro r
  have hstart : ScanInv fs realloc [] ⟨.empty, false, [.acquire .dir]⟩ :=
    ⟨rfl, by simp, fun m hm => absurd hm (Nat.not_lt_zero m), leaves_acquire [CpuResource.dir]⟩
  rcases scan_cases hstart names with ⟨s, hs, h⟩ | ⟨log, hlog, hbalanced, hgrants⟩
  · rw [List.nil_append] at h
    have hcard := h.card
    have hrefused : (s.undetermined = true ∨ s.array.pairs.length = 0 ∨
        2147483647 < s.array.pairs.length) ↔ ¬ Countable fs realloc names := by
      have hgrants := h.grants
      rw [hcard] at hgrants
      rw [h.undetermined, hcard, Finset.card_eq_zero, ← Finset.not_nonempty_iff_eq_empty,
        ← Nat.not_le, Countable, and_iff_left hgrants, not_and_or, not_and_or]
      push Not
      rfl
    have hlog : Balanced (s.log ++ (CpuResource.dir :: s.array.block).map .release) :=
      h.log.release (List.perm_append_singleton _ _).symm
    simp only [r, mjsCpuPhysical, hs, reduceCtorEq, if_false]
    by_cases hcount : Countable fs realloc names
    · rw [if_neg (hrefused.not.mpr (not_not.mpr hcount)), ← hcard]
      exact ⟨hlog, Or.inl ⟨hcount, rfl, rfl⟩⟩
    · rw [if_pos (hrefused.mpr hcount)]
      exact ⟨hlog, Or.inr ⟨hcount, rfl, rfl⟩⟩
  · rw [List.nil_append] at hgrants
    simp only [r, mjsCpuPhysical, hlog, reduceCtorEq, if_false]
    exact ⟨hbalanced, Or.inr ⟨fun h => hgrants h.2.2.2, trivial, trivial⟩⟩

/-- The order of a directory is irrelevant. -/
theorem Countable.perm (fs : Files) (realloc : ℕ → Bool) {names' : List (List UInt8)}
    (hp : names.Perm names') :
    coresOf fs names' = coresOf fs names ∧
      (Countable fs realloc names' ↔ Countable fs realloc names) := by
  have hcores : coresOf fs names' = coresOf fs names := by
    ext p
    simp only [mem_coresOf, hp.mem_iff]
  refine ⟨hcores, ?_⟩
  simp only [Countable, hcores, hp.mem_iff]

/-- The entries of some processors, among others, show their cores if the files have them. -/
theorem shows_cpus {others : List (List UInt8)} {cpus : List ℕ} {core : ℕ → ℕ × ℕ}
    (hothers : ∀ name ∈ others, isCpuName name = false)
    (hpkg : ∀ n ∈ cpus, fs (topologyPath (ascii "cpu" ++ numeral n) "physical_package_id") =
      some (numeral (core n).1 ++ [10]))
    (hcore : ∀ n ∈ cpus, fs (topologyPath (ascii "cpu" ++ numeral n) "core_id") =
      some (numeral (core n).2 ++ [10]))
    (hfits : ∀ n ∈ cpus, (core n).1 < 2 ^ 63 ∧ (core n).2 < 2 ^ 63) :
    Shows (others ++ cpus.map fun n => ascii "cpu" ++ numeral n) fs cpus.toFinset core where
  entries name := by
    simp only [List.mem_append, List.mem_map, List.mem_toFinset]
    constructor
    · rintro ⟨hname | ⟨n, hn, rfl⟩, hcpu⟩
      · rw [hothers name hname] at hcpu
        cases hcpu
      · exact ⟨n, hn, rfl⟩
    · rintro ⟨n, hn, rfl⟩
      exact ⟨Or.inr ⟨n, hn, rfl⟩, isCpuName_numeral n⟩
  packageId n hn := hpkg n (List.mem_toFinset.mp hn)
  coreId n hn := hcore n (List.mem_toFinset.mp hn)
  fits n hn := hfits n (List.mem_toFinset.mp hn)

/-- The cores of a directory that shows them. -/
theorem Shows.coresOf_eq {cpus : Finset ℕ} {core : ℕ → ℕ × ℕ} (h : Shows names fs cpus core) :
    (∀ name ∈ names, isCpuName name = true → (readCore fs name).1 ≠ none) ∧
      (coresOf fs names).card = (cpus.image core).card := by
  have hread {n : ℕ} (hn : n ∈ cpus) :
      (readCore fs (ascii "cpu" ++ numeral n)).1 = some (((core n).1 : ℤ), ((core n).2 : ℤ)) := by
    have hnl : ∀ b ∈ [(10 : UInt8)].head?, ¬ IsDigit b := by
      intro b hb
      obtain rfl : 10 = b := Option.some.inj hb
      decide
    simp only [readCore, readSysfsLong, h.packageId n hn, h.coreId n hn, scanLong_numeral hnl,
      Option.map_some, toLong_of_lt (h.fits n hn).1, toLong_of_lt (h.fits n hn).2]
  constructor
  · intro name hname hcpu
    obtain ⟨n, hn, rfl⟩ := (h.entries name).mp ⟨hname, hcpu⟩
    rw [hread hn]
    exact Option.some_ne_none _
  · have himage : coresOf fs names =
        (cpus.image core).image fun c => ((c.1 : ℤ), (c.2 : ℤ)) := by
      ext p
      rw [mem_coresOf, Finset.mem_image]
      constructor
      · rintro ⟨name, hname, hcpu, hp⟩
        obtain ⟨n, hn, rfl⟩ := (h.entries name).mp ⟨hname, hcpu⟩
        rw [hread hn] at hp
        exact ⟨core n, Finset.mem_image_of_mem core hn, Option.some.inj hp⟩
      · rintro ⟨c, hc, rfl⟩
        obtain ⟨n, hn, rfl⟩ := Finset.mem_image.mp hc
        obtain ⟨hname, hcpu⟩ := (h.entries _).mpr ⟨n, hn, rfl⟩
        exact ⟨_, hname, hcpu, hread hn⟩
    rw [himage]
    refine Finset.card_image_of_injective _ fun c d hcd => ?_
    rw [Prod.mk.injEq, Int.natCast_inj, Int.natCast_inj] at hcd
    exact Prod.ext hcd.1 hcd.2

/-- The end of a call; a directory that cannot be opened is refused like one without cores. -/
theorem mjsCpuPhysical_end (dir : Option (List (List UInt8))) (fs : Files) (realloc : ℕ → Bool)
    (out : Int32) :
    let r := mjsCpuPhysical dir fs realloc (some out)
    Balanced r.log ∧
      ((∃ names, dir = some names ∧ Countable fs realloc names ∧ r.status = none ∧
          r.out = some (Int32.ofNat (coresOf fs names).card)) ∨
        ((∀ names, dir = some names → ¬ Countable fs realloc names) ∧
          r.status = some .ENOTSUP ∧ r.out = some out)) := by
  cases dir with
  | none => exact ⟨Balanced.nil, Or.inr ⟨fun _ h => absurd h (by simp), rfl, rfl⟩⟩
  | some names =>
    obtain ⟨hbalanced, ⟨hcount, hr⟩ | ⟨hcount, hr⟩⟩ := mjsCpuPhysical_cases fs realloc names out
    · exact ⟨hbalanced, Or.inl ⟨names, rfl, hcount, hr⟩⟩
    · exact ⟨hbalanced, Or.inr ⟨fun _ h => Option.some.inj h ▸ hcount, hr⟩⟩

/-- **Counting physical cores** is exact, or fails with `ENOTSUP`. -/
theorem cpu_physical_law (dir : Option (List (List UInt8))) (fs : Files) (realloc : ℕ → Bool)
    (out : Int32) : CpuPhysicalLaw dir fs realloc out := by
  obtain ⟨hbalanced, hend⟩ := mjsCpuPhysical_end dir fs realloc out
  have hwrapper : cpuPhysicalCount dir fs realloc out =
      .ok (if (mjsCpuPhysical dir fs realloc (some out)).status = none then
        (mjsCpuPhysical dir fs realloc (some out)).out else none) := by
    rcases hend with ⟨names, -, -, hstatus, -⟩ | ⟨-, hstatus, -⟩
    · rw [cpuPhysicalCount, hstatus, if_pos rfl]
    · rw [cpuPhysicalCount, hstatus, if_neg (by simp)]
      rfl
  refine ⟨⟨fun h => ?_, ?_⟩, ?_, ?_, hwrapper, hbalanced, ?_, ?_⟩
  · rcases hend with ⟨names, hdir, hcount, -⟩ | ⟨-, hstatus, -⟩
    · exact ⟨names, hdir, hcount⟩
    · rw [hstatus] at h
      cases h
  · rintro ⟨names, hdir, hcount⟩
    rcases hend with ⟨-, -, -, hstatus, -⟩ | ⟨hnone, -⟩
    · exact hstatus
    · exact absurd hcount (hnone names hdir)
  · rintro names rfl h
    rcases hend with ⟨names', hdir, -, -, hout⟩ | ⟨-, hstatus, -⟩
    · rw [hout, Option.some.inj hdir]
    · rw [hstatus] at h
      cases h
  · intro e h
    rcases hend with ⟨-, -, -, hstatus, -⟩ | ⟨-, hstatus, hout⟩
    · rw [hstatus] at h
      cases h
    · exact ⟨(Option.some.inj (hstatus.symm.trans h)).symm, hout⟩
  · rintro names names' rfl hperm
    obtain ⟨hcores, hiff⟩ := Countable.perm fs realloc hperm
    obtain ⟨-, ⟨hcount, hstatus, hout⟩ | ⟨hcount, hstatus, hout⟩⟩ :=
      mjsCpuPhysical_cases fs realloc names out
    all_goals obtain ⟨-, ⟨hcount', hstatus', hout'⟩ | ⟨hcount', hstatus', hout'⟩⟩ :=
      mjsCpuPhysical_cases fs realloc names' out
    · rw [hstatus, hstatus', hout, hout', hcores]
      exact ⟨rfl, rfl⟩
    · exact absurd (hiff.mpr hcount) hcount'
    · exact absurd (hiff.mp hcount') hcount
    · rw [hstatus, hstatus', hout, hout']
      exact ⟨rfl, rfl⟩
  · rintro names cpus core rfl hshows hne hcard hgrants
    obtain ⟨hread, hcores⟩ := hshows.coresOf_eq
    have hcount : Countable fs realloc names := by
      refine ⟨hread, ?_, hcores ▸ hcard, hcores ▸ hgrants⟩
      rw [← Finset.card_pos, hcores, Finset.card_pos]
      exact hne.image core
    rcases hend with ⟨names', hdir, -, hstatus, hout⟩ | ⟨hnone, -⟩
    · rw [hwrapper, if_pos hstatus, hout, ← Option.some.inj hdir, hcores]
    · exact absurd hcount (hnone names rfl)

/-- Three processors with two cores: `cpu0` and `cpu2` share the first one, and `cpu10` has the
second one to itself. -/
example :
    let fs : Files := fun path =>
      if path = topologyPath (ascii "cpu" ++ numeral 10) "core_id" then some (numeral 1 ++ [10])
      else some (numeral 0 ++ [10])
    let names := [ascii ".", ascii "cpuidle"] ++ [10, 0, 2].map fun n => ascii "cpu" ++ numeral n
    Shows names fs {10, 0, 2} (fun n => if n = 10 then (0, 1) else (0, 0)) ∧
      cpuPhysicalCount (some names) fs (fun _ => true) 0 = .ok (some 2) := by
  intro fs names
  have hshows : Shows names fs [10, 0, 2].toFinset fun n => if n = 10 then (0, 1) else (0, 0) :=
    shows_cpus (by decide) (by decide +kernel) (by decide +kernel) (by decide)
  exact ⟨hshows, by decide +kernel⟩

end Law

end MojitoSys.Thread
