import KeyedVM.Enumeration
import KeyedVM.Text.Camel

set_option relaxedAutoImplicit false
set_option autoImplicit false

/-!
# Registers and register files

The sixteen registers of the machine, and files that hold one value for each of them.

## Main definitions

* `KeyedVM.Register` — eight general registers, frame and stack pointer, instruction pointer,
  flags, two registers for keys and two for the interpreter itself;
* `KeyedVM.RegisterFile` — one value per register, with `get`, `set`, `fill` and `zipWith`.

## Main results

* `KeyedVM.RegisterFile.get_set_self`, `get_set_of_ne` — a write changes one register;
* `KeyedVM.RegisterFile.ext_get` — a file is determined by its registers.
-/

namespace KeyedVM

/-- The registers of the machine. -/
inductive Register where
  | r0
  | r1
  | r2
  | r3
  | r4
  | r5
  | r6
  | r7
  /-- Frame pointer. -/
  | bp
  /-- Stack pointer. -/
  | sp
  /-- Instruction pointer. -/
  | ip
  /-- Flags. -/
  | fl
  | k1
  | k2
  | m1
  | m2
  deriving DecidableEq, Repr

namespace Register

/-- The place of a register in a register file. -/
def index : Register → Fin 16
  | r0 => 0
  | r1 => 1
  | r2 => 2
  | r3 => 3
  | r4 => 4
  | r5 => 5
  | r6 => 6
  | r7 => 7
  | bp => 8
  | sp => 9
  | ip => 10
  | fl => 11
  | k1 => 12
  | k2 => 13
  | m1 => 14
  | m2 => 15

/-- The name of a register. -/
def name : Register → String
  | r0 => "R0"
  | r1 => "R1"
  | r2 => "R2"
  | r3 => "R3"
  | r4 => "R4"
  | r5 => "R5"
  | r6 => "R6"
  | r7 => "R7"
  | bp => "BP"
  | sp => "SP"
  | ip => "IP"
  | fl => "FL"
  | k1 => "K1"
  | k2 => "K2"
  | m1 => "M1"
  | m2 => "M2"

/-- The registers in declaration order. -/
def all : List Register := [r0, r1, r2, r3, r4, r5, r6, r7, bp, sp, ip, fl, k1, k2, m1, m2]

/-- The registers in declaration order, with their words in messages. -/
instance : Enumeration Register where
  all := all
  mem_all register := by cases register <;> decide
  nodup_all := by decide
  kind := "register"
  spelling register := Text.camel register.name

/-- Different registers have different places. -/
theorem index_inj {r s : Register} : r.index = s.index ↔ r = s := by
  constructor
  · cases r <;> cases s <;> decide
  · rintro rfl
    rfl

/-- Every place of a register file belongs to a register. -/
theorem exists_index_eq (i : Fin 16) : ∃ r : Register, r.index = i := by
  refine ⟨all.get ⟨i, i.isLt⟩, ?_⟩
  revert i
  decide

end Register

/-- One value for each register. -/
structure RegisterFile (α : Type) where
  /-- The values, by the place of their register. -/
  cells : Vector α 16
  deriving DecidableEq

namespace RegisterFile

variable {α β γ : Type}

/-- The file that holds `a` everywhere. -/
def fill (a : α) : RegisterFile α := ⟨Vector.replicate 16 a⟩

/-- The value of a register. -/
def get (file : RegisterFile α) (register : Register) : α := file.cells[register.index]

/-- The file after a write to one register. -/
def set (file : RegisterFile α) (register : Register) (a : α) : RegisterFile α :=
  ⟨file.cells.set register.index a⟩

/-- Two files combined register by register. -/
def zipWith (f : α → β → γ) (a : RegisterFile α) (b : RegisterFile β) : RegisterFile γ :=
  ⟨Vector.zipWith f a.cells b.cells⟩

/-- Whether some register passes a test. -/
def any (file : RegisterFile α) (p : α → Bool) : Bool :=
  Register.all.any fun register => p (file.get register)

/-- Every register of a filled file holds the same. -/
@[simp] theorem get_fill (a : α) (r : Register) : (fill a).get r = a := by
  simp [fill, get]

/-- A register that is set holds what it was set to. -/
@[simp] theorem get_set_self (file : RegisterFile α) (r : Register) (a : α) :
    (file.set r a).get r = a := by
  simp [get, set]

/-- Setting a register leaves the others alone. -/
theorem get_set_of_ne (file : RegisterFile α) {r s : Register} (h : r ≠ s) (a : α) :
    (file.set r a).get s = file.get s := by
  have hi : (r.index : Nat) ≠ s.index := fun e => h (Register.index_inj.1 (Fin.ext e))
  simp [get, set, hi]

/-- What a register holds after one was set. -/
theorem get_set (file : RegisterFile α) (r s : Register) (a : α) :
    (file.set r a).get s = if r = s then a else file.get s := by
  by_cases h : r = s
  · subst h
    simp
  · simp [h, get_set_of_ne file h]

/-- Files are combined register by register. -/
@[simp] theorem get_zipWith (f : α → β → γ) (a : RegisterFile α) (b : RegisterFile β)
    (r : Register) : (zipWith f a b).get r = f (a.get r) (b.get r) := by
  simp [zipWith, get]

/-- Two files that agree on every register are equal. -/
theorem ext_get {a b : RegisterFile α} (h : ∀ r, a.get r = b.get r) : a = b := by
  rcases a with ⟨a⟩
  rcases b with ⟨b⟩
  congr 1
  ext i hi
  obtain ⟨r, hr⟩ := Register.exists_index_eq ⟨i, hi⟩
  have := h r
  simp only [get, hr] at this
  exact this

/-- Some register satisfies a test exactly if the computed test says so. -/
theorem any_eq_true {file : RegisterFile α} {p : α → Bool} :
    file.any p = true ↔ ∃ r, p (file.get r) = true := by
  simp only [any, List.any_eq_true]
  exact ⟨fun ⟨r, _, h⟩ => ⟨r, h⟩, fun ⟨r, h⟩ => ⟨r, Enumeration.mem_all r, h⟩⟩

end RegisterFile

end KeyedVM
