import Mathlib

/-!
# Memory as a function of addresses

Reading and writing of byte ranges: a range that was written reads back as it was written, and a
write outside a range leaves it alone.
-/

/-- The byte at each address. -/
structure Memory where
  byte : ℕ → UInt8

namespace Memory

variable {mem mem' : Memory} {start len : ℕ}

def read (mem : Memory) (start len : ℕ) : List UInt8 := (List.range' start len).map mem.byte

def write (mem : Memory) (start : ℕ) (bytes : List UInt8) : Memory where
  byte addr := if start ≤ addr then bytes[addr - start]?.getD (mem.byte addr) else mem.byte addr

@[simp] theorem length_read : (mem.read start len).length = len := by
  rw [read, List.length_map, List.length_range']

theorem read_congr
    (h : ∀ addr, start ≤ addr → addr < start + len → mem'.byte addr = mem.byte addr) :
    mem'.read start len = mem.read start len :=
  List.map_congr_left fun addr haddr ↦
    h addr (List.mem_range'_1.mp haddr).1 (List.mem_range'_1.mp haddr).2

theorem byte_write_of_outside {bytes : List UInt8} {addr : ℕ}
    (h : addr < start ∨ start + bytes.length ≤ addr) :
    (mem.write start bytes).byte addr = mem.byte addr := by
  unfold write
  dsimp only
  split
  · rw [List.getElem?_eq_none (by omega)]
    rfl
  · rfl

theorem read_write (mem : Memory) (start : ℕ) (bytes : List UInt8) :
    (mem.write start bytes).read start bytes.length = bytes := by
  apply List.ext_getElem length_read
  intro i hi hi'
  simp [read, write, hi']

theorem read_write_of_disjoint {start' : ℕ} {bytes : List UInt8}
    (h : start + len ≤ start' ∨ start' + bytes.length ≤ start) :
    (mem.write start' bytes).read start len = mem.read start len :=
  read_congr fun addr hlo hhi ↦ byte_write_of_outside (by omega)

end Memory
