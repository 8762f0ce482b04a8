import Pintos.Devices.Input
import Pintos.Libc.Printf
import Pintos.Lib.Except

/-! # `devices/kbd.c`: the keyboard

`keyboard_interrupt` reads a scancode from the data register, and the byte after it as well if
the first is the prefix `0xe0`; bit `0x80` tells a release from a press. Caps Lock toggles at
its press. A key of the keymaps gives a character at its press, which Ctrl, Shift against Caps
Lock and Alt modify before `input_putc` stores it in the input buffer, unless the buffer is
full; Ctrl+Alt+Delete reboots instead. Any other key of `shift_keys` sets its state variable to
whether it is down.

The handler runs with interrupts off, so each interrupt is one step, and its store is the
handler event `irqPutc` of the queue of `intq.c`.

* `kbd_run_safe`: from every reachable state of the input buffer, no run of keyboard interrupts
  trips an assertion of `intq.c`, and the buffer stays in a reachable state.
* `kbd_run_modifiers`: after any run, each Shift, Alt and Ctrl variable holds the state of the
  last press or release of its key, and Caps Lock has toggled at each of its presses.
* `kbd_types_text`: typing printable text key by key, with Shift held where it is needed, from
  a keyboard with no modifier down and Caps Lock off, stores the text in the input buffer as
  far as it has room, counts what it stores, and leaves the keyboard as it was.
-/

namespace Pintos.Devices
set_option autoImplicit false
open Pintos.Libc (bytes chr)
open Except

/-! ## Keymaps -/

/-- `struct keymap`: `chars[i]` has scancode `first_scancode + i`. -/
structure Keymap where
  firstScancode : Nat
  chars : List UInt8

/-- `invariant_keymap`, up to its `{0, NULL}` end. -/
def invariantKeymap : List Keymap :=
  [⟨0x01, bytes "\x1b"⟩, ⟨0x0e, bytes "\x08"⟩, ⟨0x0f, bytes "\tQWERTYUIOP"⟩, ⟨0x1c, bytes "\r"⟩,
    ⟨0x1e, bytes "ASDFGHJKL"⟩, ⟨0x2c, bytes "ZXCVBNM"⟩, ⟨0x37, bytes "*"⟩, ⟨0x39, bytes " "⟩,
    ⟨0x53, bytes "\x7f"⟩]

def unshiftedKeymap : List Keymap :=
  [⟨0x02, bytes "1234567890-="⟩, ⟨0x1a, bytes "[]"⟩, ⟨0x27, bytes ";\x27`"⟩, ⟨0x2b, bytes "\\"⟩,
    ⟨0x33, bytes ",./"⟩]

def shiftedKeymap : List Keymap :=
  [⟨0x02, bytes "!@#$%^&*()_+"⟩, ⟨0x1a, bytes "\x7b\x7d"⟩, ⟨0x27, bytes ":\"~"⟩, ⟨0x2b, bytes "|"⟩,
    ⟨0x33, bytes "<>?"⟩]

/-- `map_key (k, scancode, &c)`: the character of `scancode` in the first keymap of `k` that
has it; `strlen (k->chars)` is the length of `chars`, which holds no null byte. -/
def mapKey : List Keymap → Nat → Option UInt8
  | [], _ => none
  | k :: ks, scancode =>
    if k.firstScancode ≤ scancode ∧ scancode < k.firstScancode + k.chars.length then
      some (k.chars.getD (scancode - k.firstScancode) 0)
    else mapKey ks scancode

/-- `isupper (c)` of `lib/ctype.h`. -/
def isupper (c : UInt8) : Bool := chr 'A' ≤ c && c ≤ chr 'Z'

/-- `tolower (c)` of `lib/ctype.h`. -/
def tolower (c : UInt8) : UInt8 := if isupper c then c - chr 'A' + chr 'a' else c

/-! ## `keyboard_interrupt` -/

/-- The six state variables `left_shift`, `right_shift`, `left_alt`, `right_alt`, `left_ctrl`
and `right_ctrl`. -/
inductive ShiftKey
  | leftShift
  | rightShift
  | leftAlt
  | rightAlt
  | leftCtrl
  | rightCtrl
deriving DecidableEq, Repr

/-- The statics of `kbd.c`: the state variables, `caps_lock` and `key_cnt`. -/
@[ext] structure Kbd where
  down : ShiftKey → Bool
  capsLock : Bool
  keyCnt : Nat

/-- The statics at boot, in the zeroed BSS. -/
def Kbd.boot : Kbd := ⟨fun _ => false, false, 0⟩

def Kbd.shift (k : Kbd) : Bool := k.down .leftShift || k.down .rightShift
def Kbd.alt (k : Kbd) : Bool := k.down .leftAlt || k.down .rightAlt
def Kbd.ctrl (k : Kbd) : Bool := k.down .leftCtrl || k.down .rightCtrl

/-- `shift_keys`, up to its `{0, NULL}` end. -/
def shiftKeys : List (Nat × ShiftKey) :=
  [(0x2a, .leftShift), (0x36, .rightShift), (0x38, .leftAlt), (0xe038, .rightAlt),
    (0x1d, .leftCtrl), (0xe01d, .rightCtrl)]

/-- How `keyboard_interrupt` ends: `shutdown_reboot ()`, or an assertion of the input buffer. -/
inductive KbdExit
  | reboot
  | intq (f : IntqFault)

/-- `release = (code & 0x80) != 0`. -/
def isRelease (code : Nat) : Bool := code &&& 0x80 != 0

/-- `code &= ~0x80u`. -/
def scancodeKey (code : Nat) : Nat := code &&& 0xffffff7f

/-- The character of `code`: in `invariant_keymap`, or else in the unshifted or the shifted
keymap as Shift is up or down. -/
def lookup (shift : Bool) (code : Nat) : Option UInt8 :=
  ((mapKey invariantKeymap code).or (if !shift then mapKey unshiftedKeymap code else none)).or
    (if shift then mapKey shiftedKeymap code else none)

/-- What Ctrl, or else Shift against Caps Lock, and then Alt make of the character `c`. -/
def modifyChar (ctrl shift alt capsLock : Bool) (c : UInt8) : UInt8 :=
  let c := if ctrl && 0x40 ≤ c && c < 0x60 then c - 0x40
    else if shift == capsLock then tolower c else c
  if alt then c + 0x80 else c

/-- The press of a key with character `c`: Ctrl+Alt+Delete reboots; any other goes into the
input buffer, and is counted, unless the buffer is full. -/
def pressChar (k : Kbd) (s : Sys) (c : UInt8) : Except KbdExit (Kbd × Sys) :=
  if c == 0x7f && k.ctrl && k.alt then .error .reboot
  else
    let c := modifyChar k.ctrl k.shift k.alt k.capsLock c
    if inputFull s then .ok (k, s)
    else match inputPutc s c with
      | .ok s => .ok ({ k with keyCnt := k.keyCnt + 1 }, s)
      | .error f => .error (.intq f)

/-- The scan of `shift_keys`: the variable of the key with scancode `code` becomes `pressed`. -/
def setShiftKey (k : Kbd) (code : Nat) (pressed : Bool) : Kbd :=
  match shiftKeys.find? (·.1 == code) with
  | some (_, key) => { k with down := Function.update k.down key pressed }
  | none => k

/-- `keyboard_interrupt` for the scancode `code`, with the input buffer `s`. -/
def keyboardInterrupt (k : Kbd) (s : Sys) (code : Nat) : Except KbdExit (Kbd × Sys) :=
  let release := isRelease code
  let code := scancodeKey code
  if code = 0x3a then .ok (if release then k else { k with capsLock := !k.capsLock }, s)
  else match lookup k.shift code with
    | some c => if release then .ok (k, s) else pressChar k s c
    | none => .ok (setShiftKey k code !release, s)

/-- The scancodes that successive interrupts read from the bytes `port` of the data register.
A prefix at the end of `port` still waits for its byte. -/
def scancodes : List UInt8 → List Nat
  | [] => []
  | b :: port =>
    if b = 0xe0 then
      match port with
      | [] => []
      | b₂ :: port => ((b.toNat <<< 8) ||| b₂.toNat) :: scancodes port
    else b.toNat :: scancodes port

def runCodes (k : Kbd) (s : Sys) (codes : List Nat) : Except KbdExit (Kbd × Sys) :=
  codes.foldlM (fun r code => keyboardInterrupt r.1 r.2 code) (k, s)

/-- The interrupts that read `port`, one after another. -/
def kbdRun (k : Kbd) (s : Sys) (port : List UInt8) : Except KbdExit (Kbd × Sys) :=
  runCodes k s (scancodes port)

/-! ## Runs keep the input buffer sound -/

section Safe
variable {k k' : Kbd} {s s' : Sys}

theorem runCodes_nil : runCodes k s [] = .ok (k, s) := rfl

theorem runCodes_cons (code : Nat) (codes : List Nat) :
    runCodes k s (code :: codes) = keyboardInterrupt k s code >>= fun r => runCodes r.1 r.2 codes :=
  rfl

theorem runCodes_append (c₁ c₂ : List Nat) :
    runCodes k s (c₁ ++ c₂) = runCodes k s c₁ >>= fun r => runCodes r.1 r.2 c₂ := by
  simp only [runCodes, List.foldlM_append]

theorem pressChar_step {c : UInt8} (h : pressChar k s c = .ok (k', s')) :
    s' = s ∨ ∃ b, step s (.irqPutc b) = .ok s' := by
  unfold pressChar at h
  split at h
  · cases h
  · dsimp only at h
    split at h
    · cases h
      exact .inl rfl
    · split at h
      · rename_i s₁ hs₁
        cases h
        exact .inr ⟨_, inputPutc_step hs₁⟩
      · cases h

theorem keyboardInterrupt_step {code : Nat} (h : keyboardInterrupt k s code = .ok (k', s')) :
    s' = s ∨ ∃ b, step s (.irqPutc b) = .ok s' := by
  unfold keyboardInterrupt at h
  dsimp only at h
  split at h
  · cases h
    exact .inl rfl
  · split at h
    · split at h
      · cases h
        exact .inl rfl
      · exact pressChar_step h
    · cases h
      exact .inl rfl

theorem pressChar_ne_intq {c : UInt8} (hs : Reachable s) (f : IntqFault) :
    pressChar k s c ≠ .error (.intq f) := by
  unfold pressChar
  split
  · simp
  · dsimp only
    split
    · simp
    · rename_i hf
      obtain ⟨s₁, h₁⟩ := inputPutc_ok (Waiters.of_reachable hs) (by simpa using hf)
        (modifyChar k.ctrl k.shift k.alt k.capsLock c)
      rw [h₁]
      simp

theorem keyboardInterrupt_ne_intq {code : Nat} (hs : Reachable s) (f : IntqFault) :
    keyboardInterrupt k s code ≠ .error (.intq f) := by
  unfold keyboardInterrupt
  dsimp only
  split
  · simp
  · split
    · split
      · simp
      · exact pressChar_ne_intq hs f
    · simp

theorem runCodes_safe : ∀ (codes : List Nat) {k : Kbd} {s : Sys}, Reachable s →
    (∀ f, runCodes k s codes ≠ .error (.intq f)) ∧
      ∀ k' s', runCodes k s codes = .ok (k', s') → Reachable s'
  | [], _, _, hs => ⟨fun f => by simp [runCodes_nil], fun _ _ h => by cases h; exact hs⟩
  | code :: codes, k, s, hs => by
    rw [runCodes_cons]
    cases h₁ : keyboardInterrupt k s code with
    | error e =>
      refine ⟨fun f => ?_, fun _ _ h => by cases h⟩
      cases e with
      | reboot => simp [bind, Except.bind]
      | intq f' => exact absurd h₁ (keyboardInterrupt_ne_intq hs f')
    | ok r =>
      have hr : Reachable r.2 := by
        rcases keyboardInterrupt_step h₁ with he | ⟨b, hb⟩
        · exact he ▸ hs
        · exact hs.tail ⟨_, hb⟩
      exact runCodes_safe codes hr

theorem kbd_run_safe (hs : Reachable s) (port : List UInt8) :
    (∀ f, kbdRun k s port ≠ .error (.intq f)) ∧
      ∀ k' s', kbdRun k s port = .ok (k', s') → Reachable s' :=
  runCodes_safe (scancodes port) hs

/-- Thread 1 waits in `input_getc`, and the keys of "a" are pressed and released. -/
theorem kbd_run_safe_reader :
    ∃ s, Reachable s ∧ s.q.notEmpty = some 1 ∧
      (∀ f, kbdRun Kbd.boot s [0x1e, 0x9e] ≠ .error (.intq f)) ∧
      ∀ k' s', kbdRun Kbd.boot s [0x1e, 0x9e] = .ok (k', s') → Reachable s' := by
  obtain ⟨s, hs, hp⟩ : ∃ s, Reachable s ∧ (s.q.notEmpty == some 1) = true :=
    exists_reachable_of_runSteps [.getc 1] (by decide +kernel)
  exact ⟨s, hs, beq_iff_eq.mp hp, kbd_run_safe hs [0x1e, 0x9e]⟩

end Safe

/-! ## The state variables follow their keys -/

/-- The state of `key` after the scancodes `codes`, from `d`: that of its last press or release. -/
def keyState (key : ShiftKey) (d : Bool) (codes : List Nat) : Bool :=
  codes.foldl (fun d code => if (scancodeKey code, key) ∈ shiftKeys then !isRelease code else d) d

/-- Caps Lock after the scancodes `codes`, from `caps`: toggled at each press of its key. -/
def capsState (caps : Bool) (codes : List Nat) : Bool :=
  codes.foldl (fun c code => if scancodeKey code = 0x3a ∧ isRelease code = false then !c else c) caps

section Modifiers
variable {k k' : Kbd} {s s' : Sys}

theorem shiftKeys_unique : ∀ p ∈ shiftKeys, ∀ q ∈ shiftKeys, p.1 = q.1 → p.2 = q.2 := by decide

theorem lookup_shiftKeys (shift : Bool) : ∀ p ∈ shiftKeys, lookup shift p.1 = none ∧ p.1 ≠ 0x3a := by
  cases shift <;> decide

theorem setShiftKey_down (code : Nat) (pressed : Bool) (key : ShiftKey) :
    (setShiftKey k code pressed).down key = if (code, key) ∈ shiftKeys then pressed else k.down key := by
  unfold setShiftKey
  split
  · rename_i sc key' hfind
    have hmem := List.mem_of_find?_eq_some hfind
    have hsc : sc = code := by simpa using List.find?_some hfind
    subst hsc
    by_cases hk : key = key'
    · subst hk
      simp [hmem]
    · have hnot : (sc, key) ∉ shiftKeys := fun hm => hk (shiftKeys_unique _ hm _ hmem rfl)
      simp [hnot, Function.update_of_ne hk]
  · rename_i hfind
    have hnot : (code, key) ∉ shiftKeys := fun hm => by
      simpa using List.find?_eq_none.mp hfind _ hm
    simp [hnot]

theorem setShiftKey_capsLock (code : Nat) (pressed : Bool) :
    (setShiftKey k code pressed).capsLock = k.capsLock := by
  unfold setShiftKey
  split <;> rfl

theorem pressChar_keys {c : UInt8} (h : pressChar k s c = .ok (k', s')) :
    k'.down = k.down ∧ k'.capsLock = k.capsLock := by
  unfold pressChar at h
  split at h
  · cases h
  · dsimp only at h
    split at h
    · cases h
      exact ⟨rfl, rfl⟩
    · split at h
      · cases h
        exact ⟨rfl, rfl⟩
      · cases h

/-- One interrupt: the variable of the key it reads becomes whether it is a press; Caps Lock
toggles at its press; nothing else changes either. -/
theorem keyboardInterrupt_keys {code : Nat} (h : keyboardInterrupt k s code = .ok (k', s')) :
    (∀ key, k'.down key =
      if (scancodeKey code, key) ∈ shiftKeys then !isRelease code else k.down key) ∧
    k'.capsLock = if scancodeKey code = 0x3a ∧ isRelease code = false then !k.capsLock else k.capsLock := by
  unfold keyboardInterrupt at h
  dsimp only at h
  split at h
  · rename_i h3a
    cases h
    have hnot : ∀ key, ((0x3a : Nat), key) ∉ shiftKeys := fun key => by cases key <;> decide
    cases hr : isRelease code <;> simp [h3a, hnot]
  · rename_i h3a
    split at h
    · rename_i c hl
      have hnot : ∀ key, (scancodeKey code, key) ∉ shiftKeys := fun key hm => by
        simpa [hl] using (lookup_shiftKeys k.shift _ hm).1
      have hk : k'.down = k.down ∧ k'.capsLock = k.capsLock := by
        split at h
        · cases h
          exact ⟨rfl, rfl⟩
        · exact pressChar_keys h
      simp [hnot, hk.1, hk.2, h3a]
    · cases h
      exact ⟨setShiftKey_down _ _, by simp [setShiftKey_capsLock, h3a]⟩

theorem runCodes_keys : ∀ (codes : List Nat) {k k' : Kbd} {s s' : Sys},
    runCodes k s codes = .ok (k', s') →
      (∀ key, k'.down key = keyState key (k.down key) codes) ∧
        k'.capsLock = capsState k.capsLock codes
  | [], _, _, _, _, h => by
    cases h
    exact ⟨fun _ => rfl, rfl⟩
  | code :: codes, k, k', s, s', h => by
    rw [runCodes_cons] at h
    obtain ⟨r, h₁, h₂⟩ := bind_eq_ok.mp h
    obtain ⟨hd, hc⟩ := keyboardInterrupt_keys h₁
    obtain ⟨ihd, ihc⟩ := runCodes_keys codes h₂
    refine ⟨fun key => ?_, ?_⟩
    · rw [ihd, hd]
      rfl
    · rw [ihc, hc]
      rfl

theorem kbd_run_modifiers {port : List UInt8} (h : kbdRun k s port = .ok (k', s')) :
    (∀ key, k'.down key = keyState key (k.down key) (scancodes port)) ∧
      k'.capsLock = capsState k.capsLock (scancodes port) :=
  runCodes_keys (scancodes port) h

theorem kbd_run_modifiers_shift_caps :
    let k' : Kbd := ⟨Function.update (fun _ => false) .leftShift true, true, 0⟩
    (∀ key, k'.down key = keyState key (Kbd.boot.down key) (scancodes [0x2a, 0x3a, 0xba])) ∧
      k'.capsLock = capsState Kbd.boot.capsLock (scancodes [0x2a, 0x3a, 0xba]) := by
  intro k'
  have h : kbdRun Kbd.boot Sys.init [0x2a, 0x3a, 0xba] = .ok (k', Sys.init) := rfl
  exact kbd_run_modifiers h

end Modifiers

/-! ## Typing text

The other side of the keymaps: the key that types a character, and the bytes the keyboard sends
as it is typed. -/

/-- `islower (c)` of `lib/ctype.h`. -/
def islower (c : UInt8) : Bool := chr 'a' ≤ c && c ≤ chr 'z'

/-- `toupper (c)` of `lib/ctype.h`. -/
def toupper (c : UInt8) : UInt8 := if islower c then c - chr 'a' + chr 'A' else c

/-- The scancode of `c` in the first keymap of `k` that has it. -/
def findScancode (k : List Keymap) (c : UInt8) : Option Nat :=
  k.findSome? fun m => if c ∈ m.chars then some (m.firstScancode + m.chars.idxOf c) else none

/-- The key that types `c`, and whether Shift is held for it: a letter's key in
`invariant_keymap`, with Shift for a capital, and any other character's in the first keymap
that has it. -/
def keyFor (c : UInt8) : Option (Nat × Bool) :=
  if isupper c then (findScancode invariantKeymap c).map (·, true)
  else if islower c then (findScancode invariantKeymap (toupper c)).map (·, false)
  else match findScancode invariantKeymap c with
    | some code => some (code, false)
    | none => match findScancode unshiftedKeymap c with
      | some code => some (code, false)
      | none => (findScancode shiftedKeymap c).map (·, true)

/-- The bytes the keyboard sends as `c` is typed: the key's press and release, inside those of
the left Shift if it is held. -/
def typeChar (c : UInt8) : List UInt8 :=
  match keyFor c with
  | some (code, false) => [code.toUInt8, (code + 0x80).toUInt8]
  | some (code, true) => [0x2a, code.toUInt8, (code + 0x80).toUInt8, 0xaa]
  | none => []

def typeText (text : List UInt8) : List UInt8 := text.flatMap typeChar

/-- The bytes the input buffer still has room for. -/
def room (s : Sys) : Nat := INTQ_BUFSIZE - 1 - count s.q

/-- That `c` types as itself: its key has a one-byte scancode below `0x60`, is not Caps Lock,
and has the character `c` with no Ctrl, Alt or Caps Lock. -/
def typesAsItself (c : UInt8) : Bool :=
  match keyFor c with
  | some (code, shift) =>
    code < 0x60 && code != 0x3a && (lookup shift code).map (modifyChar false shift false false) == some c
  | none => false

theorem typesAsItself_printable : ∀ n < 127, 32 ≤ n → typesAsItself n.toUInt8 = true := by
  decide +kernel

theorem scancode_lt : ∀ n < 0x60, scancodeKey n = n ∧ isRelease n = false ∧
    scancodeKey (n + 0x80) = n ∧ isRelease (n + 0x80) = true := by
  decide +kernel

section Typing
variable {k : Kbd} {s s' : Sys}

theorem keyFor_printable {c : UInt8} (hc : 32 ≤ c.toNat ∧ c.toNat < 127) :
    ∃ code shift c₀, keyFor c = some (code, shift) ∧ code < 0x60 ∧ code ≠ 0x3a ∧
      lookup shift code = some c₀ ∧ modifyChar false shift false false c₀ = c := by
  have h := typesAsItself_printable c.toNat hc.2 hc.1
  rw [Nat.toUInt8_eq, UInt8.ofNat_toNat] at h
  unfold typesAsItself at h
  split at h
  · rename_i code shift hkey
    simp only [Bool.and_eq_true, decide_eq_true_eq, bne_iff_ne, ne_eq, beq_iff_eq] at h
    obtain ⟨⟨hlt, h3a⟩, hl⟩ := h
    obtain ⟨c₀, hc₀, rfl⟩ := Option.map_eq_some_iff.mp hl
    exact ⟨code, shift, c₀, hkey, hlt, h3a, hc₀, rfl⟩
  · cases h

theorem inputPutc_data {c : UInt8} (hi : Inv s) (h : inputPutc s c = .ok s') :
    s'.put = s.put ++ [c] ∧ s'.got = s.got ∧ count s'.q = count s.q + 1 := by
  unfold inputPutc at h
  split at h
  · cases h
  · rename_i hf
    unfold putcStore at h
    dsimp only at h
    have hd := signal_data h
    simp only [Sys.data, Sys.setQ, Prod.mk.injEq] at hd
    obtain ⟨-, hh, ht, hp, hg⟩ := hd
    refine ⟨hp, hg, ?_⟩
    have hlt := hi.count_lt (by simpa using hf)
    have := hi.head_lt
    have := hi.tail_lt
    rw [count, hh, ht]
    simp only [count, Devices.next, INTQ_BUFSIZE] at *
    omega

theorem inputFull_iff (hi : Inv s) : inputFull s = true ↔ room s = 0 := by
  have := hi.head_lt
  have := hi.tail_lt
  simp only [inputFull, intqFull, room, count, next, beq_iff_eq, INTQ_BUFSIZE] at *
  omega

theorem keyboardInterrupt_press {code sc : Nat} {c₀ : UInt8} (hsc : scancodeKey code = sc)
    (hr : isRelease code = false) (h3a : sc ≠ 0x3a) (hl : lookup k.shift sc = some c₀) :
    keyboardInterrupt k s code = pressChar k s c₀ := by
  unfold keyboardInterrupt
  simp only [hsc, hr, if_neg h3a, hl, Bool.false_eq_true, if_false]

theorem keyboardInterrupt_release {code sc : Nat} {c₀ : UInt8} (hsc : scancodeKey code = sc)
    (hr : isRelease code = true) (h3a : sc ≠ 0x3a) (hl : lookup k.shift sc = some c₀) :
    keyboardInterrupt k s code = .ok (k, s) := by
  unfold keyboardInterrupt
  simp only [hsc, hr, if_neg h3a, hl, if_true]

theorem setShiftKey_of_mem {sc : Nat} {key : ShiftKey} (hmem : (sc, key) ∈ shiftKeys) (p : Bool) :
    setShiftKey k sc p = { k with down := Function.update k.down key p } := by
  ext key'
  · rw [setShiftKey_down]
    by_cases hk : key' = key
    · subst hk
      simp [hmem]
    · have hnot : (sc, key') ∉ shiftKeys := fun hm => hk (shiftKeys_unique _ hm _ hmem rfl)
      simp [hnot, Function.update_of_ne hk]
  · exact setShiftKey_capsLock sc p
  · unfold setShiftKey
    split <;> rfl

theorem keyboardInterrupt_shiftKey {code sc : Nat} {key : ShiftKey} (hsc : scancodeKey code = sc)
    (hmem : (sc, key) ∈ shiftKeys) :
    keyboardInterrupt k s code = .ok ({ k with down := Function.update k.down key !isRelease code }, s) := by
  obtain ⟨hl, h3a⟩ := lookup_shiftKeys k.shift _ hmem
  unfold keyboardInterrupt
  simp only [hsc, if_neg h3a, hl, setShiftKey_of_mem hmem]

theorem pressChar_plain (c₀ : UInt8) (hctrl : k.ctrl = false) (halt : k.alt = false) (hw : Waiters s) :
    ∃ s', pressChar k s c₀ =
        .ok (if inputFull s then k else { k with keyCnt := k.keyCnt + 1 }, s') ∧
      if inputFull s then s' = s
      else inputPutc s (modifyChar false k.shift false k.capsLock c₀) = .ok s' := by
  unfold pressChar
  simp only [hctrl, halt, Bool.and_false, Bool.false_eq_true, if_false]
  cases hf : inputFull s
  · obtain ⟨s₁, h₁⟩ := inputPutc_ok hw hf (modifyChar false k.shift false k.capsLock c₀)
    refine ⟨s₁, ?_, h₁⟩
    simp only [Bool.false_eq_true, if_false, h₁]
  · exact ⟨s, by simp, rfl⟩

theorem runCodes_key {code : Nat} {c₀ : UInt8} (hctrl : k.ctrl = false) (halt : k.alt = false)
    (hs : Reachable s) (hlt : code < 0x60) (h3a : code ≠ 0x3a) (hl : lookup k.shift code = some c₀) :
    ∃ s', runCodes k s [code, code + 0x80] = .ok ({ k with keyCnt := k.keyCnt + min 1 (room s) }, s') ∧
      Reachable s' ∧ s'.got = s.got ∧
      s'.put = s.put ++ [modifyChar false k.shift false k.capsLock c₀].take (room s) ∧
      room s' = room s - 1 := by
  obtain ⟨hsc, hr, hsc', hr'⟩ := scancode_lt code hlt
  have hi := Inv.of_reachable hs
  obtain ⟨s₁, hpress, hput⟩ := pressChar_plain c₀ hctrl halt (Waiters.of_reachable hs)
  -- the release finds the same character, as the press changed no state variable
  have hrel : ∀ k₁ : Kbd, k₁.down = k.down →
      keyboardInterrupt k₁ s₁ (code + 0x80) = .ok (k₁, s₁) := fun k₁ hd =>
    keyboardInterrupt_release hsc' hr' h3a (by simpa [Kbd.shift, hd] using hl)
  refine ⟨s₁, ?_, ?_⟩
  · rw [runCodes_cons, keyboardInterrupt_press hsc hr h3a hl, hpress]
    show runCodes _ s₁ [code + 0x80] = _
    rw [runCodes_cons, hrel _ (by split <;> rfl)]
    show Except.ok (_, s₁) = _
    split
    · rename_i hf
      have h0 : room s = 0 := (inputFull_iff hi).mp hf
      exact congrArg (fun k₁ => Except.ok (k₁, s₁)) (Kbd.ext rfl rfl (by simp [h0]))
    · rename_i hf
      have h0 : room s ≠ 0 := fun h => hf ((inputFull_iff hi).mpr h)
      exact congrArg (fun k₁ => Except.ok (k₁, s₁)) (Kbd.ext rfl rfl (by simp; omega))
  · split at hput
    · rename_i hf
      rw [hput]
      have h0 : room s = 0 := (inputFull_iff hi).mp hf
      simp [hs, h0]
    · rename_i hf
      have h0 : room s ≠ 0 := fun h => hf ((inputFull_iff hi).mpr h)
      obtain ⟨hp, hg, hc⟩ := inputPutc_data hi hput
      refine ⟨hs.tail ⟨_, inputPutc_step hput⟩, hg, ?_, ?_⟩
      · rw [hp, List.take_of_length_le (by simp; omega)]
      · simp only [room, hc] at h0 ⊢
        omega

theorem scancodes_map {port : List UInt8} (h : ∀ b ∈ port, b ≠ 0xe0) :
    scancodes port = port.map UInt8.toNat := by
  induction port with
  | nil => rfl
  | cons b port ih =>
    have hrest := ih (fun x hx => h x (List.mem_cons_of_mem b hx))
    rw [scancodes.eq_def]
    simp only [if_neg (h b List.mem_cons_self), hrest, List.map_cons]

/-- The bytes of a character's key: no prefix among them, and the scancodes of its press and
release, inside those of the left Shift if it is held. -/
theorem typeChar_codes {c : UInt8} {code : Nat} {shift : Bool} (hkey : keyFor c = some (code, shift))
    (hlt : code < 0x60) :
    (∀ b ∈ typeChar c, b ≠ 0xe0) ∧
      (typeChar c).map UInt8.toNat = if shift then [0x2a, code, code + 0x80, 0xaa] else [code, code + 0x80] := by
  have hne : ∀ n, n < 0xe0 → n.toUInt8 ≠ 0xe0 := fun n hn he => by
    have := congrArg UInt8.toNat he
    simp only [Nat.toUInt8_eq, UInt8.toNat_ofNat', show (0xe0 : UInt8).toNat = 0xe0 from rfl] at this
    omega
  unfold typeChar
  rw [hkey]
  cases shift with
  | false =>
    refine ⟨?_, ?_⟩
    · simp only [List.mem_cons, List.not_mem_nil, or_false]
      rintro b (rfl | rfl)
      · exact hne _ (by omega)
      · exact hne _ (by omega)
    · simp only [List.map_cons, List.map_nil, Nat.toUInt8_eq, UInt8.toNat_ofNat', Bool.false_eq_true, if_false]
      congr 2 <;> omega
  | true =>
    refine ⟨?_, ?_⟩
    · simp only [List.mem_cons, List.not_mem_nil, or_false]
      rintro b (rfl | rfl | rfl | rfl)
      · decide
      · exact hne _ (by omega)
      · exact hne _ (by omega)
      · decide
    · simp only [List.map_cons, List.map_nil, Nat.toUInt8_eq, UInt8.toNat_ofNat', if_true]
      congr 3 <;> omega

theorem runCodes_typeChar {c : UInt8} (hk : ∀ key, k.down key = false) (hcaps : k.capsLock = false)
    (hs : Reachable s) (hc : 32 ≤ c.toNat ∧ c.toNat < 127) :
    ∃ s', runCodes k s ((typeChar c).map UInt8.toNat) =
        .ok ({ k with keyCnt := k.keyCnt + min 1 (room s) }, s') ∧
      Reachable s' ∧ s'.got = s.got ∧ s'.put = s.put ++ [c].take (room s) ∧ room s' = room s - 1 := by
  obtain ⟨code, shift, c₀, hkey, hlt, h3a, hl, hmod⟩ := keyFor_printable hc
  have hcodes := (typeChar_codes hkey hlt).2
  have hctrl : k.ctrl = false := by simp [Kbd.ctrl, hk]
  have halt : k.alt = false := by simp [Kbd.alt, hk]
  cases shift with
  | false =>
    have hsh : k.shift = false := by simp [Kbd.shift, hk]
    rw [hcodes, if_neg Bool.false_ne_true]
    obtain ⟨s', h, rest⟩ := runCodes_key hctrl halt hs hlt h3a (hsh ▸ hl)
    rw [hsh, hcaps, hmod] at rest
    exact ⟨s', h, rest⟩
  | true =>
    let kₛ : Kbd := { k with down := Function.update k.down .leftShift true }
    have hsh : kₛ.shift = true := by simp [kₛ, Kbd.shift]
    have hctrl' : kₛ.ctrl = false := by simp [kₛ, Kbd.ctrl, Function.update_of_ne, hk]
    have halt' : kₛ.alt = false := by simp [kₛ, Kbd.alt, Function.update_of_ne, hk]
    obtain ⟨s', h, rest⟩ := runCodes_key hctrl' halt' hs hlt h3a (hsh ▸ hl)
    rw [hsh, show kₛ.capsLock = false from hcaps, hmod] at rest
    refine ⟨s', ?_, rest⟩
    have hpress : runCodes k s [0x2a] = .ok (kₛ, s) := by
      rw [runCodes_cons, keyboardInterrupt_shiftKey (show scancodeKey 0x2a = 0x2a by decide)
        (show ((0x2a : Nat), ShiftKey.leftShift) ∈ shiftKeys by decide)]
      rfl
    have hrelease : ∀ k₁ : Kbd, runCodes k₁ s' [0xaa] =
        .ok ({ k₁ with down := Function.update k₁.down .leftShift false }, s') := fun k₁ => by
      rw [runCodes_cons, keyboardInterrupt_shiftKey (show scancodeKey 0xaa = 0x2a by decide)
        (show ((0x2a : Nat), ShiftKey.leftShift) ∈ shiftKeys by decide)]
      rfl
    rw [hcodes, if_pos rfl, show [0x2a, code, code + 0x80, 0xaa] = [0x2a] ++ [code, code + 0x80] ++ [0xaa] from rfl,
      runCodes_append, runCodes_append, hpress]
    show (runCodes kₛ s [code, code + 0x80]) >>= (fun r => runCodes r.1 r.2 [0xaa]) = _
    rw [h]
    show runCodes { kₛ with keyCnt := kₛ.keyCnt + min 1 (room s) } s' [0xaa] = _
    rw [hrelease]
    refine congrArg (fun k₁ => Except.ok (k₁, s')) (Kbd.ext ?_ rfl rfl)
    funext key
    by_cases hkey' : key = .leftShift
    · subst hkey'
      simp [hk]
    · simp [kₛ, Function.update_of_ne hkey']

theorem runCodes_typeText : ∀ (text : List UInt8) {k : Kbd} {s : Sys},
    (∀ key, k.down key = false) → k.capsLock = false → Reachable s →
    (∀ c ∈ text, 32 ≤ c.toNat ∧ c.toNat < 127) →
    ∃ s', runCodes k s (text.flatMap fun c => (typeChar c).map UInt8.toNat) =
        .ok ({ k with keyCnt := k.keyCnt + min text.length (room s) }, s') ∧
      Reachable s' ∧ s'.got = s.got ∧ s'.put = s.put ++ text.take (room s)
  | [], k, s, _, _, hs, _ =>
    ⟨s, congrArg (fun k₁ => Except.ok (k₁, s)) (Kbd.ext rfl rfl (by simp)), hs, rfl, by simp⟩
  | c :: text, k, s, hk, hcaps, hs, htext => by
    obtain ⟨s₁, h₁, hs₁, hg₁, hp₁, hr₁⟩ := runCodes_typeChar hk hcaps hs (htext c List.mem_cons_self)
    obtain ⟨s', h', hs', hg', hp'⟩ := runCodes_typeText text (k := { k with keyCnt := k.keyCnt + min 1 (room s) })
      hk hcaps hs₁ (fun x hx => htext x (List.mem_cons_of_mem c hx))
    refine ⟨s', ?_, hs', hg'.trans hg₁, ?_⟩
    · rw [List.flatMap_cons, runCodes_append, h₁]
      show runCodes _ s₁ _ = _
      rw [h', hr₁]
      refine congrArg (fun k₁ => Except.ok (k₁, s')) (Kbd.ext rfl rfl ?_)
      simp only [List.length_cons]
      omega
    · rw [hp', hp₁, hr₁, List.append_assoc]
      congr 1
      cases room s <;> simp

theorem kbd_types_text {text : List UInt8} (hk : ∀ key, k.down key = false)
    (hcaps : k.capsLock = false) (hs : Reachable s) (htext : ∀ c ∈ text, 32 ≤ c.toNat ∧ c.toNat < 127) :
    ∃ s', kbdRun k s (typeText text) = .ok ({ k with keyCnt := k.keyCnt + min text.length (room s) }, s') ∧
      Reachable s' ∧ contents s'.q = contents s.q ++ text.take (room s) := by
  -- no byte of typed text is the prefix, so each is a scancode of its own
  have hbytes : ∀ b ∈ typeText text, b ≠ 0xe0 := by
    intro b hb
    obtain ⟨c, hc, hbc⟩ := List.mem_flatMap.mp hb
    obtain ⟨code, shift, c₀, hkey, hlt, -⟩ := keyFor_printable (htext c hc)
    exact (typeChar_codes hkey hlt).1 b hbc
  obtain ⟨s', h, hs', hg, hp⟩ := runCodes_typeText text hk hcaps hs htext
  refine ⟨s', ?_, hs', ?_⟩
  · rw [kbdRun, scancodes_map hbytes, typeText, List.map_flatMap]
    exact h
  · have hf := (Inv.of_reachable hs).fifo
    have hf' := (Inv.of_reachable hs').fifo
    rw [hf', hg, hf, List.append_assoc] at hp
    exact List.append_cancel_left hp

theorem kbd_types_text_boot :
    ∃ s', kbdRun Kbd.boot Sys.init (typeText (bytes "Hi!")) =
        .ok ({ Kbd.boot with keyCnt := Kbd.boot.keyCnt + min (bytes "Hi!").length (room Sys.init) }, s') ∧
      Reachable s' ∧ contents s'.q = contents Sys.init.q ++ (bytes "Hi!").take (room Sys.init) :=
  kbd_types_text (fun _ => rfl) rfl .refl (by decide +kernel)

end Typing

end Pintos.Devices
