import Pintos.Str.String
import Mathlib.Data.UInt
import Mathlib.Tactic.IntervalCases

/-! # `devices/vga.c`: the text display

The display is 25 rows of 80 cells at `fb = ptov (0xb8000)`, two bytes a cell (character,
attribute). The cursor is kept twice: in the statics `cx` and `cy`, and in the CRT controller,
which `init` reads once, on the first `vga_putc`. The controller is its index register and the
registers it selects: `outb` to `0x3d4` sets the index, `inb` from `0x3d5` reads the selected
register, and a 16-bit `outw` to `0x3d4` does both, its low byte the index and its high byte the
value. `vga_putc` runs with interrupts off, so a call is one step; the beep of `'\a'` is a call
into the speaker, which the display does not see.

* `Page`: what the display is for, a page of rows without end of which the screen shows the 25
  from row `top` on; `Page.putc` says what each byte does to it.
* `Shows.putc`: from a state that shows a page, `vga_putc` shows the page `Page.putc` makes
  of it and writes no byte outside the framebuffer.
* `vga_putc_shows_page`, `vga_putc_writes_only_framebuffer`: every run from boot, when the
  controller holds a cursor on the screen.
* `vga_putc_hardware_cursor`: after every call `find_cursor` reads back `(cx, cy)`.
-/

namespace Pintos.Devices
set_option autoImplicit false
open Pintos.Str (Mem memmove)

def COL_CNT : Nat := 80
def ROW_CNT : Nat := 25
def GRAY_ON_BLACK : UInt8 := 0x07

/-- `ROUND_UP` of `lib/round.h`. -/
def ROUND_UP (x step : Nat) : Nat := (x + step - 1) / step * step

/-- `fb`, which `init` sets to `ptov (0xb8000)`. -/
def fb : Nat := 0xc00b8000

/-- The address of `fb[y][x][0]`, the character of a cell; `fb[y][x][1]`, its attribute, is the
byte after it. -/
def cellAddr (y x : Nat) : Nat := fb + (y * COL_CNT + x) * 2

/-- The bytes of `fb[ROW_CNT][COL_CNT][2]`. -/
def InFb (a : Nat) : Prop := fb ≤ a ∧ a < fb + ROW_CNT * COL_CNT * 2

/-- The cell at column `x` of row `y`, as (character, attribute). -/
def screen (mem : Mem) (y x : Nat) : UInt8 × UInt8 := (mem (cellAddr y x), mem (cellAddr y x + 1))

/-- What `clear_row` puts in a cell: a space, gray on black. -/
def blank : UInt8 × UInt8 := (32, GRAY_ON_BLACK)

structure Crtc where
  index : UInt8
  regs : UInt8 → UInt8

namespace Crtc

/-- `outb (0x3d4, v)`. -/
def outb (c : Crtc) (v : UInt8) : Crtc := { c with index := v }

/-- `inb (0x3d5)`. -/
def inb (c : Crtc) : UInt8 := c.regs c.index

/-- `outw (0x3d4, v)`. -/
def outw (c : Crtc) (v : UInt16) : Crtc :=
  { index := v.toUInt8, regs := Function.update c.regs v.toUInt8 (v >>> 8).toUInt8 }

/-- The cursor location the controller holds, register `0x0e` its high byte and `0x0f` its low. -/
def cursor (c : Crtc) : Nat := (c.regs 0x0e).toNat * 256 + (c.regs 0x0f).toNat

end Crtc

/-- The statics of `vga.c` (`inited` is the one of `init`), the memory `fb` points into, and the
controller. -/
structure Vga where
  inited : Bool
  cx : Nat
  cy : Nat
  mem : Mem
  crtc : Crtc

namespace Vga

/-- `find_cursor`: the controller after it, and the `(x, y)` it reads. -/
def findCursor (c : Crtc) : Crtc × Nat × Nat :=
  let c := c.outb 0x0e
  let hi := c.inb
  let c := c.outb 0x0f
  let cp : UInt16 := hi.toUInt16 <<< 8 ||| c.inb.toUInt16
  (c, cp.toNat % COL_CNT, cp.toNat / COL_CNT)

def init (s : Vga) : Vga :=
  if s.inited then s
  else
    let r := findCursor s.crtc
    { s with cx := r.2.1, cy := r.2.2, crtc := r.1, inited := true }

/-- `move_cursor`. -/
def moveCursor (s : Vga) : Vga :=
  let cp : UInt16 := (s.cx + COL_CNT * s.cy).toUInt16
  { s with crtc := (s.crtc.outw ((0x0e : UInt16) ||| (cp &&& 0xff00))).outw ((0x0f : UInt16) ||| (cp <<< 8)) }

/-- `fb[y][x][0] = ch; fb[y][x][1] = attr;`. -/
def setCell (mem : Mem) (y x : Nat) (ch attr : UInt8) : Mem :=
  Function.update (Function.update mem (cellAddr y x) ch) (cellAddr y x + 1) attr

/-- `clear_row (y)`. -/
def clearRow (mem : Mem) (y : Nat) : Mem :=
  (List.range COL_CNT).foldl (fun mem x => setCell mem y x 32 GRAY_ON_BLACK) mem

def cls (s : Vga) : Vga :=
  moveCursor { s with mem := (List.range ROW_CNT).foldl clearRow s.mem, cx := 0, cy := 0 }

/-- `memmove (&fb[0], &fb[1], sizeof fb[0] * (ROW_CNT - 1))`. `fb` is not null, so the
assertions of `memmove` hold and its `none` does not arise. -/
def scrollUp (mem : Mem) : Mem :=
  match memmove mem fb (fb + COL_CNT * 2) (COL_CNT * 2 * (ROW_CNT - 1)) with
  | some (mem', _) => mem'
  | none => mem

def newline (s : Vga) : Vga :=
  let s := { s with cx := 0, cy := s.cy + 1 }
  if s.cy ≥ ROW_CNT then
    { s with cy := ROW_CNT - 1, mem := clearRow (scrollUp s.mem) (ROW_CNT - 1) }
  else s

/-- `cx = x; if (cx >= COL_CNT) newline ();`, how the `'\t'` case and the default case end. -/
def advance (s : Vga) (x : Nat) : Vga :=
  let s := { s with cx := x }
  if s.cx ≥ COL_CNT then s.newline else s

end Vga

/-- `vga_putc`, on the bytes `putchar_have_lock` passes it. -/
def vgaPutc (s : Vga) (c : UInt8) : Vga :=
  let s := s.init
  let s :=
    if c = 10 then s.newline                                      -- '\n'
    else if c = 12 then s.cls                                     -- '\f'
    else if c = 8 then if s.cx > 0 then { s with cx := s.cx - 1 } else s  -- '\b'
    else if c = 13 then { s with cx := 0 }                        -- '\r'
    else if c = 9 then s.advance (ROUND_UP (s.cx + 1) 8)          -- '\t'
    else if c = 7 then s                                          -- '\a'
    else { s with mem := Vga.setCell s.mem s.cy s.cx c GRAY_ON_BLACK }.advance (s.cx + 1)
  s.moveCursor

/-- `vga_putc` on each byte in turn, as `putbuf` of `lib/kernel/console.c` calls it. -/
def vgaRun (s : Vga) (cs : List UInt8) : Vga := cs.foldl vgaPutc s

/-! ## The page the display shows -/

/-- A page of rows without end (row, column ↦ cell), the cursor at column `x` of row `y`, and
the screen on the 25 rows from `top` on. -/
structure Page where
  cells : Nat → Nat → UInt8 × UInt8
  x : Nat
  y : Nat
  top : Nat

namespace Page

/-- The next row; the screen moves down with the cursor when it leaves the bottom. -/
def lineFeed (p : Page) : Page :=
  { p with x := 0, y := p.y + 1, top := max p.top (p.y + 2 - ROW_CNT) }

def empty : Page := ⟨fun _ _ => blank, 0, 0, 0⟩

/-- The cursor to column `x`, or past the last column to the next row. -/
def advance (p : Page) (x : Nat) : Page := if x ≥ COL_CNT then p.lineFeed else { p with x }

/-- A character at the cursor. -/
def write (p : Page) (c : UInt8) : Page :=
  { p with cells := fun r x => if r = p.y ∧ x = p.x then (c, GRAY_ON_BLACK) else p.cells r x }

def putc (p : Page) (c : UInt8) : Page :=
  if c = 10 then p.lineFeed
  else if c = 12 then empty
  else if c = 8 then { p with x := p.x - 1 }
  else if c = 13 then { p with x := 0 }
  else if c = 9 then p.advance (ROUND_UP (p.x + 1) 8)
  else if c = 7 then p
  else (p.write c).advance (p.x + 1)

def run (p : Page) (cs : List UInt8) : Page := cs.foldl putc p

end Page

/-- The screen of `s` holds the rows `top` to `top + 24` of `p`, the cursor is on the screen at
row `y` of the page, the rows below the screen are blank, and memory outside the framebuffer is
that of `m₀`. -/
structure Rows (m₀ : Mem) (s : Vga) (p : Page) : Prop where
  cy_lt : s.cy < ROW_CNT
  y_eq : p.y = p.top + s.cy
  screen_eq : ∀ y < ROW_CNT, ∀ x < COL_CNT, screen s.mem y x = p.cells (p.top + y) x
  below : ∀ r, p.top + ROW_CNT ≤ r → ∀ x < COL_CNT, p.cells r x = blank
  others : ∀ a, ¬ InFb a → s.mem a = m₀ a

/-- `s` shows `p`: its rows do, and its column is the page's, on the screen. -/
structure Shows (m₀ : Mem) (s : Vga) (p : Page) : Prop extends Rows m₀ s p where
  inited : s.inited = true
  cx_eq : s.cx = p.x
  cx_lt : s.cx < COL_CNT

/-! ## Cells -/

section Cells
open Vga
variable {mem : Mem}

theorem screen_setCell {y x y' x' : Nat} (hx : x < COL_CNT) (hx' : x' < COL_CNT) (ch attr : UInt8) :
    screen (setCell mem y x ch attr) y' x' =
      if y' = y ∧ x' = x then (ch, attr) else screen mem y' x' := by
  unfold screen setCell cellAddr
  simp only [COL_CNT] at hx hx'
  by_cases h : y' = y ∧ x' = x
  · obtain ⟨rfl, rfl⟩ := h
    simp
  · rw [if_neg h]
    simp only [Function.update_apply, COL_CNT]
    split_ifs <;> first | rfl | omega

theorem setCell_of_not_inFb {y x a : Nat} (hy : y < ROW_CNT) (hx : x < COL_CNT) (ha : ¬ InFb a)
    (ch attr : UInt8) : setCell mem y x ch attr a = mem a := by
  unfold InFb at ha
  unfold setCell cellAddr
  simp only [ROW_CNT, COL_CNT] at *
  rw [Function.update_of_ne (by omega), Function.update_of_ne (by omega)]

theorem screen_foldl_setCell (y : Nat) (ch attr : UInt8) {y' x' : Nat} (hx' : x' < COL_CNT) :
    ∀ (l : List Nat), (∀ x ∈ l, x < COL_CNT) → ∀ mem : Mem,
      screen (l.foldl (fun m x => setCell m y x ch attr) mem) y' x' =
        if y' = y ∧ x' ∈ l then (ch, attr) else screen mem y' x'
  | [], _, mem => by simp
  | x :: l, hl, mem => by
    rw [List.foldl_cons, screen_foldl_setCell y ch attr hx' l (fun b hb => hl b (List.mem_cons_of_mem x hb)),
      screen_setCell (hl x List.mem_cons_self) hx']
    by_cases h : y' = y ∧ x' = x
    · simp [h]
    · by_cases h' : y' = y ∧ x' ∈ l
      · simp [h']
      · rw [if_neg h, if_neg h', if_neg (by simp only [List.mem_cons]; tauto)]

theorem screen_clearRow (y : Nat) {y' x' : Nat} (hx' : x' < COL_CNT) :
    screen (clearRow mem y) y' x' = if y' = y then blank else screen mem y' x' := by
  unfold clearRow
  rw [screen_foldl_setCell y 32 GRAY_ON_BLACK hx' _ (fun x hx => List.mem_range.mp hx)]
  simp [List.mem_range, hx', blank]

theorem clearRow_of_not_inFb {y a : Nat} (hy : y < ROW_CNT) (ha : ¬ InFb a) :
    clearRow mem y a = mem a :=
  Bytes.foldl_apply_of_forall _ _
    (fun _ hx _ => setCell_of_not_inFb hy (List.mem_range.mp hx) ha _ _) mem

theorem screen_foldl_clearRow {y x : Nat} (hx : x < COL_CNT) :
    ∀ (l : List Nat) (mem : Mem), screen (l.foldl clearRow mem) y x =
      if y ∈ l then blank else screen mem y x
  | [], mem => by simp
  | r :: l, mem => by
    rw [List.foldl_cons, screen_foldl_clearRow hx l, screen_clearRow r hx]
    by_cases h : y ∈ l
    · simp [h]
    · by_cases hr : y = r <;> simp [h, hr]

theorem scrollUp_eq (mem : Mem) :
    scrollUp mem = Bytes.copy mem fb mem (fb + COL_CNT * 2) (COL_CNT * 2 * (ROW_CNT - 1)) := by
  unfold scrollUp
  rw [Str.memmove_spec mem _ (.inl ⟨by unfold fb; omega, by unfold fb; omega⟩)]

theorem screen_scrollUp {y x : Nat} (hy : y + 1 < ROW_CNT) (hx : x < COL_CNT) :
    screen (scrollUp mem) y x = screen mem (y + 1) x := by
  simp only [ROW_CNT, COL_CNT] at hy hx
  have hlo : ∀ k, fb ≤ cellAddr y x + k := fun k => by unfold cellAddr; omega
  have hhi : ∀ k < 2, cellAddr y x + k < fb + COL_CNT * 2 * (ROW_CNT - 1) := fun k hk => by
    unfold cellAddr; simp only [COL_CNT, ROW_CNT]; omega
  -- the source of the copy is one row, `COL_CNT * 2` bytes, further on
  have hsrc : ∀ k, fb + COL_CNT * 2 + (cellAddr y x + k - fb) = cellAddr (y + 1) x + k := fun k => by
    unfold cellAddr; simp only [COL_CNT]; omega
  unfold screen
  rw [scrollUp_eq, Bytes.copy_of_mem _ _ (hlo 1) (hhi 1 (by omega)), hsrc 1,
    ← Nat.add_zero (cellAddr y x), Bytes.copy_of_mem _ _ (hlo 0) (hhi 0 (by omega)), hsrc 0,
    Nat.add_zero, Nat.add_zero]

theorem scrollUp_of_not_inFb {a : Nat} (ha : ¬ InFb a) : scrollUp mem a = mem a := by
  unfold InFb at ha
  simp only [ROW_CNT, COL_CNT] at ha
  rw [scrollUp_eq, Bytes.copy_of_not_mem _ _ (by simp only [ROW_CNT, COL_CNT]; omega)]

end Cells

/-! ## Each step of `vga_putc` on the page -/

section Steps
variable {m₀ : Mem} {s : Vga} {p : Page}

@[simp] theorem moveCursor_mem : s.moveCursor.mem = s.mem := rfl
@[simp] theorem moveCursor_cx : s.moveCursor.cx = s.cx := rfl
@[simp] theorem moveCursor_cy : s.moveCursor.cy = s.cy := rfl
@[simp] theorem moveCursor_inited : s.moveCursor.inited = s.inited := rfl

theorem shows_moveCursor : Shows m₀ s.moveCursor p ↔ Shows m₀ s p := by
  constructor <;> intro h <;>
    exact ⟨⟨h.cy_lt, h.y_eq, h.screen_eq, h.below, h.others⟩, h.inited, h.cx_eq, h.cx_lt⟩

theorem init_of_inited (h : s.inited = true) : s.init = s := by
  simp [Vga.init, h]

theorem Rows.with_cx (h : Rows m₀ s p) (x x' : Nat) : Rows m₀ { s with cx := x } { p with x := x' } :=
  ⟨h.cy_lt, h.y_eq, h.screen_eq, h.below, h.others⟩

theorem Rows.newline (h : Rows m₀ s p) : Rows m₀ s.newline p.lineFeed := by
  have hy := h.y_eq
  have hcy := h.cy_lt
  unfold Vga.newline Page.lineFeed
  dsimp only
  simp only [ROW_CNT] at hcy
  split
  case isTrue hlast =>
    have hcy24 : s.cy = 24 := by simp only [ROW_CNT] at hlast; omega
    have htop : max p.top (p.y + 2 - ROW_CNT) = p.top + 1 := by simp only [ROW_CNT]; omega
    refine ⟨show ROW_CNT - 1 < ROW_CNT by decide, by simp only [htop]; omega, ?_, ?_, ?_⟩
    · intro y hy x hx
      simp only [htop]
      rw [screen_clearRow _ hx]
      by_cases hy24 : y = ROW_CNT - 1
      · rw [if_pos hy24, h.below _ (by simp only [ROW_CNT] at hy24 ⊢; omega) x hx]
      · rw [if_neg hy24, screen_scrollUp (by simp only [ROW_CNT] at hy hy24 ⊢; omega) hx,
          h.screen_eq _ (by simp only [ROW_CNT] at hy hy24 ⊢; omega) x hx]
        congr 1
        omega
    · intro r hr x hx
      exact h.below r (by simp only [htop] at hr; omega) x hx
    · intro a ha
      show Vga.clearRow (Vga.scrollUp s.mem) (ROW_CNT - 1) a = m₀ a
      rw [clearRow_of_not_inFb (by decide) ha, scrollUp_of_not_inFb ha, h.others a ha]
  case isFalse hnext =>
    have htop : max p.top (p.y + 2 - ROW_CNT) = p.top := by simp only [ROW_CNT] at hnext ⊢; omega
    refine ⟨by simp only [ROW_CNT] at hnext ⊢; omega, by simp only [htop]; omega, ?_, ?_, h.others⟩
    · simpa only [htop] using h.screen_eq
    · simpa only [htop] using h.below

theorem Rows.shows_newline (h : Rows m₀ s p) (hi : s.inited = true) :
    Shows m₀ s.newline p.lineFeed := by
  refine ⟨h.newline, ?_, ?_, ?_⟩ <;> unfold Vga.newline <;> dsimp only <;> split
  all_goals first | exact hi | rfl | exact (show 0 < COL_CNT by decide)

theorem Rows.advance (h : Rows m₀ s p) (hi : s.inited = true) (x : Nat) :
    Shows m₀ (s.advance x) (p.advance x) := by
  unfold Vga.advance Page.advance
  dsimp only
  split
  case isTrue hx => exact Rows.shows_newline (s := { s with cx := x }) (h.with_cx x p.x) hi
  case isFalse hx => exact ⟨h.with_cx x x, hi, rfl, show x < COL_CNT by omega⟩

theorem Shows.write (h : Shows m₀ s p) (c : UInt8) :
    Rows m₀ { s with mem := Vga.setCell s.mem s.cy s.cx c GRAY_ON_BLACK } (p.write c) := by
  have hy := h.y_eq
  refine ⟨h.cy_lt, h.y_eq, ?_, ?_, ?_⟩
  · intro y hy' x hx
    simp only [Page.write]
    rw [screen_setCell h.cx_lt hx, h.screen_eq y hy' x hx, h.cx_eq]
    -- row `y` of the screen is row `top + y` of the page
    by_cases hc : y = s.cy ∧ x = p.x
    · rw [if_pos hc, if_pos ⟨by omega, hc.2⟩]
    · rw [if_neg hc, if_neg (by omega)]
  · intro r hr x hx
    have hcy := h.cy_lt
    have hr' : p.top + ROW_CNT ≤ r := hr
    show (if r = p.y ∧ x = p.x then _ else _) = blank
    rw [if_neg (by omega)]
    exact h.below r hr' x hx
  · intro a ha
    show Vga.setCell s.mem s.cy s.cx c GRAY_ON_BLACK a = m₀ a
    rw [setCell_of_not_inFb h.cy_lt h.cx_lt ha, h.others a ha]

theorem Shows.cls (hi : s.inited = true) (ho : ∀ a, ¬ InFb a → s.mem a = m₀ a) :
    Shows m₀ s.cls Page.empty := by
  unfold Vga.cls
  rw [shows_moveCursor]
  refine ⟨⟨show 0 < ROW_CNT by decide, rfl, ?_, fun _ _ _ _ => rfl, ?_⟩, hi, rfl,
    show 0 < COL_CNT by decide⟩
  · intro y hy x hx
    rw [screen_foldl_clearRow hx, if_pos (List.mem_range.mpr hy)]
    rfl
  · intro a ha
    show (List.range ROW_CNT).foldl Vga.clearRow s.mem a = m₀ a
    rw [Bytes.foldl_apply_of_forall Vga.clearRow _
      (fun _ hr _ => clearRow_of_not_inFb (List.mem_range.mp hr) ha), ho a ha]

theorem Shows.putc (h : Shows m₀ s p) (c : UInt8) : Shows m₀ (vgaPutc s c) (p.putc c) := by
  unfold vgaPutc Page.putc
  rw [init_of_inited h.inited, shows_moveCursor]
  have hx := h.cx_eq
  split_ifs with h10 h12 h8 hpos h13 h9 h7
  · exact h.toRows.shows_newline h.inited
  · exact Shows.cls h.inited h.others
  · exact ⟨h.toRows.with_cx _ _, h.inited, by simp; omega, by have := h.cx_lt; simp; omega⟩
  · exact ⟨h.toRows.with_cx _ _, h.inited, by simp; omega, h.cx_lt⟩
  · exact ⟨h.toRows.with_cx _ _, h.inited, rfl, show 0 < COL_CNT by decide⟩
  · rw [← hx]
    exact h.toRows.advance h.inited _
  · exact h
  · rw [← hx]
    exact (h.write c).advance h.inited _

theorem Shows.run (h : Shows m₀ s p) (cs : List UInt8) : Shows m₀ (vgaRun s cs) (p.run cs) := by
  induction cs generalizing s p with
  | nil => exact h
  | cons c cs ih => exact ih (h.putc c)

end Steps

/-! ## The controller's cursor -/

section Cursor

theorem toNat_shiftLeft_or (hi lo : UInt8) :
    (hi.toUInt16 <<< 8 ||| lo.toUInt16).toNat = hi.toNat * 256 + lo.toNat := by
  have hlo : lo.toNat < 2 ^ 8 := lo.toNat_lt
  have hhi := hi.toNat_lt
  have hsh : hi.toNat <<< 8 % 2 ^ 16 = hi.toNat <<< 8 :=
    Nat.mod_eq_of_lt (by rw [Nat.shiftLeft_eq]; omega)
  rw [UInt16.toNat_or, UInt16.toNat_shiftLeft, UInt8.toNat_toUInt16, UInt8.toNat_toUInt16]
  simp only [UInt16.reduceToNat, Nat.reduceMod]
  rw [hsh, ← Nat.shiftLeft_add_eq_or_of_lt hlo, Nat.shiftLeft_eq]

theorem toNat_bytes (cp : UInt16) : (cp >>> 8).toUInt8.toNat * 256 + cp.toUInt8.toNat = cp.toNat := by
  have := cp.toNat_lt
  simp only [UInt16.toNat_toUInt8, UInt16.toNat_shiftRight, UInt16.reduceToNat, Nat.reduceMod,
    Nat.shiftRight_eq_div_pow]
  omega

/-! The two words `move_cursor` writes: the index in the low byte, a byte of `cp` in the high. -/

theorem toUInt8_or_and (cp : UInt16) : ((0x0e : UInt16) ||| (cp &&& 0xff00)).toUInt8 = 0x0e := by
  apply UInt8.toBitVec_inj.mp
  ext i hi
  simp

theorem shiftRight_or_and (cp : UInt16) : ((0x0e : UInt16) ||| (cp &&& 0xff00)) >>> 8 = cp >>> 8 := by
  apply UInt16.toBitVec_inj.mp
  ext i hi
  simp
  interval_cases i <;> simp

theorem toUInt8_or_shiftLeft (cp : UInt16) : ((0x0f : UInt16) ||| (cp <<< 8)).toUInt8 = 0x0f := by
  apply UInt8.toBitVec_inj.mp
  ext i hi
  simp

theorem shiftRight_or_shiftLeft (cp : UInt16) :
    (((0x0f : UInt16) ||| (cp <<< 8)) >>> 8).toUInt8 = cp.toUInt8 := by
  apply UInt8.toBitVec_inj.mp
  ext i hi
  simp
  interval_cases i <;> simp

theorem findCursor_snd (c : Crtc) : (Vga.findCursor c).2 = (c.cursor % COL_CNT, c.cursor / COL_CNT) := by
  unfold Vga.findCursor Crtc.inb Crtc.outb Crtc.cursor
  dsimp only
  rw [toNat_shiftLeft_or]

theorem cursor_moveCursor (s : Vga) : s.moveCursor.crtc.cursor = (s.cx + COL_CNT * s.cy) % 2 ^ 16 := by
  unfold Vga.moveCursor Crtc.cursor Crtc.outw
  dsimp only
  rw [toUInt8_or_shiftLeft, toUInt8_or_and, Function.update_self,
    Function.update_of_ne (by decide), Function.update_self, shiftRight_or_shiftLeft,
    shiftRight_or_and, toNat_bytes, UInt16.toNat_ofNat']

theorem findCursor_moveCursor (s : Vga) (hx : s.cx < COL_CNT) (hy : s.cy < ROW_CNT) :
    (Vga.findCursor s.moveCursor.crtc).2 = (s.cx, s.cy) := by
  rw [findCursor_snd, cursor_moveCursor]
  simp only [COL_CNT, ROW_CNT] at *
  have hlt : s.cx + 80 * s.cy < 2 ^ 16 := by omega
  rw [Nat.mod_eq_of_lt hlt]
  simp only [Prod.mk.injEq]
  omega

end Cursor

/-! ## Runs from boot -/

section Boot
variable {s : Vga}

/-- The screen at boot, as the first rows of a page, with the cursor where the controller has
it. -/
def bootPage (s : Vga) : Page :=
  ⟨fun r x => if r < ROW_CNT then screen s.mem r x else blank,
    s.crtc.cursor % COL_CNT, s.crtc.cursor / COL_CNT, 0⟩

theorem init_init : s.init.init = s.init := by
  unfold Vga.init
  split <;> simp [*]

theorem vgaRun_init {cs : List UInt8} (hcs : cs ≠ []) : vgaRun s.init cs = vgaRun s cs := by
  obtain ⟨c, cs, rfl⟩ := List.exists_cons_of_ne_nil hcs
  have hput : vgaPutc s.init c = vgaPutc s c := by
    unfold vgaPutc
    rw [init_init]
  simp only [vgaRun, List.foldl_cons, hput]

theorem init_of_not_inited (h : s.inited = false) :
    s.init = { s with
      cx := s.crtc.cursor % COL_CNT, cy := s.crtc.cursor / COL_CNT,
      crtc := (Vga.findCursor s.crtc).1, inited := true } := by
  unfold Vga.init
  rw [if_neg (by simp [h])]
  dsimp only
  rw [findCursor_snd]

theorem shows_init (h : s.inited = false) (hc : s.crtc.cursor < ROW_CNT * COL_CNT) :
    Shows s.mem s.init (bootPage s) := by
  rw [init_of_not_inited h]
  simp only [ROW_CNT, COL_CNT] at hc
  refine ⟨⟨?_, ?_, ?_, ?_, fun _ _ => rfl⟩, rfl, rfl, ?_⟩ <;> dsimp only [bootPage]
  · simp only [ROW_CNT, COL_CNT]; omega
  · omega
  · intro y hy x _
    rw [Nat.zero_add, if_pos hy]
  · intro r hr x _
    rw [if_neg (by omega)]
  · simp only [COL_CNT]; omega

end Boot

theorem vga_putc_shows_page {s : Vga} (h : s.inited = false) (hc : s.crtc.cursor < ROW_CNT * COL_CNT)
    {cs : List UInt8} (hcs : cs ≠ []) : Shows s.mem (vgaRun s cs) ((bootPage s).run cs) := by
  rw [← vgaRun_init hcs]
  exact (shows_init h hc).run cs

theorem vga_putc_shows_page_hello :
    let s : Vga := ⟨false, 0, 0, fun _ => 0, ⟨0, fun _ => 0⟩⟩
    Shows s.mem (vgaRun s [104, 105, 10]) ((bootPage s).run [104, 105, 10]) := by
  intro s
  exact vga_putc_shows_page (s := s) rfl (by decide) (by simp)

theorem vga_putc_writes_only_framebuffer {s : Vga} (h : s.inited = false)
    (hc : s.crtc.cursor < ROW_CNT * COL_CNT) (cs : List UInt8) :
    (∀ a, ¬ InFb a → (vgaRun s cs).mem a = s.mem a) ∧
      (cs ≠ [] → (vgaRun s cs).cx < COL_CNT ∧ (vgaRun s cs).cy < ROW_CNT) := by
  by_cases hcs : cs = []
  · subst hcs
    exact ⟨fun _ _ => rfl, fun h => absurd rfl h⟩
  · have hs := (shows_init h hc).run cs
    rw [vgaRun_init hcs] at hs
    exact ⟨hs.others, fun _ => ⟨hs.cx_lt, hs.cy_lt⟩⟩

theorem vga_putc_writes_only_framebuffer_tab :
    let s : Vga := ⟨false, 0, 0, fun _ => 0, ⟨0, fun r => if r = 0x0f then 79 else 0⟩⟩
    (∀ a, ¬ InFb a → (vgaRun s [9, 65]).mem a = s.mem a) ∧
      ([9, 65] ≠ ([] : List UInt8) → (vgaRun s [9, 65]).cx < COL_CNT ∧ (vgaRun s [9, 65]).cy < ROW_CNT) :=
  vga_putc_writes_only_framebuffer rfl (by decide) [9, 65]

theorem vga_putc_hardware_cursor {s : Vga} (h : s.inited = false)
    (hc : s.crtc.cursor < ROW_CNT * COL_CNT) {cs : List UInt8} (hcs : cs ≠ []) :
    (Vga.findCursor (vgaRun s cs).crtc).2 = ((vgaRun s cs).cx, (vgaRun s cs).cy) := by
  have hs := (shows_init h hc).run cs
  rw [vgaRun_init hcs] at hs
  obtain ⟨cs', c, rfl⟩ := (List.eq_nil_or_concat' cs).resolve_left hcs
  have hlast : ∃ u : Vga, vgaRun s (cs' ++ [c]) = u.moveCursor :=
    ⟨_, by simp only [vgaRun, List.foldl_append, List.foldl_cons, List.foldl_nil]; rfl⟩
  obtain ⟨u, hu⟩ := hlast
  rw [hu] at hs ⊢
  exact findCursor_moveCursor u hs.cx_lt hs.cy_lt

theorem vga_putc_hardware_cursor_newline :
    let s : Vga := ⟨false, 0, 0, fun _ => 0, ⟨0, fun r => if r = 0x0e then 7 else if r = 0x0f then 0x80 else 0⟩⟩
    (Vga.findCursor (vgaRun s [10, 65]).crtc).2 = ((vgaRun s [10, 65]).cx, (vgaRun s [10, 65]).cy) := by
  intro s
  exact vga_putc_hardware_cursor (s := s) rfl (by decide) (by simp)

end Pintos.Devices
