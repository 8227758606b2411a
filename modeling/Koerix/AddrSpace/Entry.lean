import Koerix.Lib.BitField

/-! # Paging table entries

An entry of any of the four table levels is one 64-bit word, read and written
through the bit-fields of `GenericPagingTable`. The entry updates that the
address space code performs are named here with the fields they leave behind.
Fields that no code reads (accessed, dirty, protection key and the reserved
bits) are carried along in the word.
-/

namespace Koerix

open BitField

/-- One entry of a page table, page directory, PDPT or PML4. -/
abbrev GenericPagingTable := BitVec 64

/-- The flags of `AddrSpace::map`, one Boolean for each bit of the mask. -/
structure MapFlags where
  user : Bool
  write : Bool
  noexec : Bool
  shared : Bool
  nocache : Bool
  deriving DecidableEq, Repr

namespace GenericPagingTable

def present (e : GenericPagingTable) : Bool := flag 0 e
def write (e : GenericPagingTable) : Bool := flag 1 e
def user (e : GenericPagingTable) : Bool := flag 2 e
def cacheDisable (e : GenericPagingTable) : Bool := flag 4 e
def cowWasWritable (e : GenericPagingTable) : Bool := flag 9 e
def shared (e : GenericPagingTable) : Bool := flag 10 e
def ppn (e : GenericPagingTable) : ℕ := get 12 28 e
def noExec (e : GenericPagingTable) : Bool := flag 63 e

def setPresent (e : GenericPagingTable) (b : Bool) : GenericPagingTable := setFlag 0 b e
def setWrite (e : GenericPagingTable) (b : Bool) : GenericPagingTable := setFlag 1 b e
def setUser (e : GenericPagingTable) (b : Bool) : GenericPagingTable := setFlag 2 b e
def setCacheDisable (e : GenericPagingTable) (b : Bool) : GenericPagingTable := setFlag 4 b e
def setCowWasWritable (e : GenericPagingTable) (b : Bool) : GenericPagingTable := setFlag 9 b e
def setShared (e : GenericPagingTable) (b : Bool) : GenericPagingTable := setFlag 10 b e
def setPpn (e : GenericPagingTable) (n : ℕ) : GenericPagingTable := set 12 28 n e
def setNoExec (e : GenericPagingTable) (b : Bool) : GenericPagingTable := setFlag 63 b e

/-- The fresh entry that `map` writes above the page table level. -/
def ofTable (n : ℕ) : GenericPagingTable :=
  setUser (setWrite (setPpn (setPresent 0 true) n) true) true

/-- The fresh entry that `map` writes for a payload page. -/
def ofPage (n : ℕ) (flags : MapFlags) : GenericPagingTable :=
  let e := setPpn (setPresent 0 true) n
  let e := raise 1 flags.write e
  let e := raise 2 flags.user e
  let e := raise 10 flags.shared e
  let e := raise 63 flags.noexec e
  raise 4 flags.nocache e

/-- Take away the write permission, remembering it for copy-on-write. -/
def demote (e : GenericPagingTable) : GenericPagingTable :=
  let e := if cowWasWritable e then e else setCowWasWritable e (write e)
  setWrite e false

/-- Point an entry at the private copy of what it referred to. -/
def relink (e : GenericPagingTable) (n : ℕ) : GenericPagingTable := setWrite (setPpn e n) true

/-- The page may be written, now or after copy-on-write. -/
def writable (e : GenericPagingTable) : Bool := write e || cowWasWritable e

attribute [local simp] present write user cacheDisable cowWasWritable shared ppn noExec
  setPresent setWrite setUser setCacheDisable setCowWasWritable setShared setPpn setNoExec
  flag_setFlag_same flag_setFlag_of_ne flag_set_of_notMem get_setFlag get_set_same
  flag_raise_same flag_raise_of_ne get_raise

section Zero

@[simp] theorem present_zero : present 0#64 = false := by simp
@[simp] theorem ppn_zero : ppn 0#64 = 0 := by simp

end Zero

section OfTable

variable (n : ℕ)

@[simp] theorem present_ofTable : present (ofTable n) = true := by simp [ofTable]
@[simp] theorem write_ofTable : write (ofTable n) = true := by simp [ofTable]
@[simp] theorem user_ofTable : user (ofTable n) = true := by simp [ofTable]
@[simp] theorem shared_ofTable : shared (ofTable n) = false := by simp [ofTable]
@[simp] theorem cowWasWritable_ofTable : cowWasWritable (ofTable n) = false := by simp [ofTable]
@[simp] theorem noExec_ofTable : noExec (ofTable n) = false := by simp [ofTable]
@[simp] theorem ppn_ofTable : ppn (ofTable n) = n % 2 ^ 28 := by simp [ofTable]

end OfTable

section OfPage

variable (n : ℕ) (flags : MapFlags)

@[simp] theorem present_ofPage : present (ofPage n flags) = true := by simp [ofPage]
@[simp] theorem write_ofPage : write (ofPage n flags) = flags.write := by simp [ofPage]
@[simp] theorem user_ofPage : user (ofPage n flags) = flags.user := by simp [ofPage]
@[simp] theorem shared_ofPage : shared (ofPage n flags) = flags.shared := by simp [ofPage]
@[simp] theorem cowWasWritable_ofPage : cowWasWritable (ofPage n flags) = false := by simp [ofPage]
@[simp] theorem noExec_ofPage : noExec (ofPage n flags) = flags.noexec := by simp [ofPage]
@[simp] theorem cacheDisable_ofPage : cacheDisable (ofPage n flags) = flags.nocache := by
  simp [ofPage]
@[simp] theorem ppn_ofPage : ppn (ofPage n flags) = n % 2 ^ 28 := by simp [ofPage]

end OfPage

section Update

variable (e : GenericPagingTable) (n : ℕ) (b : Bool)

@[simp] theorem present_demote : present (demote e) = present e := by
  unfold demote; dsimp only; split_ifs <;> simp
@[simp] theorem write_demote : write (demote e) = false := by
  unfold demote; dsimp only; split_ifs <;> simp
@[simp] theorem cowWasWritable_demote : cowWasWritable (demote e) = writable e := by
  unfold demote writable; dsimp only; split_ifs with h <;> simp_all
@[simp] theorem writable_demote : writable (demote e) = writable e := by
  rw [writable, write_demote, cowWasWritable_demote, Bool.false_or]
@[simp] theorem user_demote : user (demote e) = user e := by
  unfold demote; dsimp only; split_ifs <;> simp
@[simp] theorem shared_demote : shared (demote e) = shared e := by
  unfold demote; dsimp only; split_ifs <;> simp
@[simp] theorem noExec_demote : noExec (demote e) = noExec e := by
  unfold demote; dsimp only; split_ifs <;> simp
@[simp] theorem cacheDisable_demote : cacheDisable (demote e) = cacheDisable e := by
  unfold demote; dsimp only; split_ifs <;> simp
@[simp] theorem ppn_demote : ppn (demote e) = ppn e := by
  unfold demote; dsimp only; split_ifs <;> simp

@[simp] theorem present_relink : present (relink e n) = present e := by simp [relink]
@[simp] theorem write_relink : write (relink e n) = true := by simp [relink]
@[simp] theorem user_relink : user (relink e n) = user e := by simp [relink]
@[simp] theorem shared_relink : shared (relink e n) = shared e := by simp [relink]
@[simp] theorem noExec_relink : noExec (relink e n) = noExec e := by simp [relink]
@[simp] theorem cacheDisable_relink : cacheDisable (relink e n) = cacheDisable e := by simp [relink]
@[simp] theorem ppn_relink : ppn (relink e n) = n % 2 ^ 28 := by simp [relink]

@[simp] theorem present_setWrite : present (setWrite e b) = present e := by simp
@[simp] theorem write_setWrite : write (setWrite e b) = b := by simp
@[simp] theorem user_setWrite : user (setWrite e b) = user e := by simp
@[simp] theorem shared_setWrite : shared (setWrite e b) = shared e := by simp
@[simp] theorem cowWasWritable_setWrite : cowWasWritable (setWrite e b) = cowWasWritable e := by
  simp
@[simp] theorem noExec_setWrite : noExec (setWrite e b) = noExec e := by simp
@[simp] theorem cacheDisable_setWrite : cacheDisable (setWrite e b) = cacheDisable e := by simp
@[simp] theorem ppn_setWrite : ppn (setWrite e b) = ppn e := by simp

@[simp] theorem present_setPresent : present (setPresent e b) = b := by simp

end Update

end GenericPagingTable

end Koerix
