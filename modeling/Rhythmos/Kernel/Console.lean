import Rhythmos.Library.Fallible
import Rhythmos.Libc.Printf

/-!
# The console

`scroll` and `write_to_screen` of `main.c`.  A terminal without a lower end writes on a page, by the
same rules for each character; the screen is a window on the page that follows the cursor down.
-/

namespace Rhythmos.Kernel.Console

open Fallible
open Libc.Printf (Fault)

def screenWidth : ℕ := 80
def screenHeight : ℕ := 25

def newline : UInt8 := 10
def tab : UInt8 := 9
def backspace : UInt8 := 8
def space : UInt8 := 32

/-- `screenchar`, with `fg` and `bg` in one byte. -/
structure ScreenChar where
  c : UInt8
  colours : UInt8

/-- The video memory, the position of the next character, and the value in the registers of the
video card. -/
structure Screen where
  cells : ℕ → ScreenChar
  xpos : ℕ
  ypos : ℕ
  cursor : ℕ

/-! ## The functions of `main.c` -/

def load (s : Screen) (index : ℕ) : Except Fault ScreenChar :=
  if index < screenWidth * screenHeight then .ok (s.cells index) else .error .outOfBounds

def store (s : Screen) (index : ℕ) (cell : ScreenChar) : Except Fault Screen :=
  if index < screenWidth * screenHeight then
    .ok { s with cells := Function.update s.cells index cell }
  else .error .outOfBounds

/-- The assignment `screen[index].c = c`. -/
def setChar (s : Screen) (index : ℕ) (c : UInt8) : Except Fault Screen := do
  let cell ← load s index
  store s index { cell with c := c }

/-- The loop that moves the line below up to the line `y`. -/
def moveLine (s : Screen) (y : ℕ) : Except Fault Screen :=
  (List.range screenWidth).foldlM (fun s x => do
    let cell ← load s ((y + 1) * screenWidth + x)
    store s (y * screenWidth + x) cell) s

/-- A loop that clears the line `y`. -/
def clearLine (s : Screen) (y : ℕ) : Except Fault Screen :=
  (List.range screenWidth).foldlM (fun s x => setChar s (y * screenWidth + x) space) s

def scroll (s : Screen) : Except Fault Screen := do
  let s ← (List.range (screenHeight - 1)).foldlM moveLine s
  let s ← clearLine s (screenHeight - 1)
  return { s with ypos := s.ypos - 1 }

/-- What a character does before the end of the line is checked. -/
def display (s : Screen) (c : UInt8) : Except Fault Screen :=
  if c = newline then .ok { s with xpos := 0, ypos := s.ypos + 1 }
  else if c = tab then .ok { s with xpos := s.xpos + (8 - s.xpos % 8) }
  else if c = backspace ∧ s.xpos ≠ 0 then
    setChar { s with xpos := s.xpos - 1 } (s.ypos * screenWidth + (s.xpos - 1)) 0
  else do
    let s ← setChar s (s.ypos * screenWidth + s.xpos) c
    return { s with xpos := s.xpos + 1 }

def wrap (s : Screen) : Screen :=
  if screenWidth ≤ s.xpos then { s with xpos := 0, ypos := s.ypos + 1 } else s

/-- A turn of the loop of `write_to_screen`. -/
def putChar (s : Screen) (c : UInt8) : Except Fault Screen := do
  let s ← display s c
  if screenHeight ≤ (wrap s).ypos then scroll (wrap s) else return wrap s

def moveCursor (s : Screen) : Screen := { s with cursor := s.ypos * 80 + s.xpos }

def writeToScreen (s : Screen) (data : List UInt8) : Except Fault Screen := do
  let s ← data.foldlM putChar s
  return moveCursor s

/-- The beginning of `kmain`, before which `xpos` and `ypos` are 0. -/
def clearScreen (cells : ℕ → ScreenChar) (cursor : ℕ) : Except Fault Screen := do
  let s ← (List.range screenHeight).foldlM clearLine ⟨cells, 0, 0, cursor⟩
  return moveCursor s

/-! ## A terminal without a lower end -/

/-- The page, and where the next character goes. -/
structure Page where
  rows : ℕ → ℕ → UInt8
  xpos : ℕ
  row : ℕ

namespace Page

def blank : Page := ⟨fun _ _ => space, 0, 0⟩

def setChar (p : Page) (x : ℕ) (c : UInt8) : Page :=
  { p with rows := Function.update p.rows p.row (Function.update (p.rows p.row) x c) }

def display (p : Page) (c : UInt8) : Page :=
  if c = newline then { p with xpos := 0, row := p.row + 1 }
  else if c = tab then { p with xpos := p.xpos + (8 - p.xpos % 8) }
  else if c = backspace ∧ p.xpos ≠ 0 then
    { p.setChar (p.xpos - 1) 0 with xpos := p.xpos - 1 }
  else { p.setChar p.xpos c with xpos := p.xpos + 1 }

def wrap (p : Page) : Page :=
  if screenWidth ≤ p.xpos then { p with xpos := 0, row := p.row + 1 } else p

def putChar (p : Page) (c : UInt8) : Page := (p.display c).wrap

/-- The page after some text. -/
def typed (text : List UInt8) : Page := text.foldl putChar blank

/-- The first row on a screen that shows the last rows that have been started. -/
def top (p : Page) : ℕ := p.row + 1 - screenHeight

end Page

variable {s : Screen} {p : Page} {base : ℕ}

theorem screenWidth_pos : 0 < screenWidth := by decide

theorem screenHeight_pos : 0 < screenHeight := by decide

theorem Page.setChar_rows (p : Page) (x : ℕ) (c : UInt8) (row x' : ℕ) :
    (p.setChar x c).rows row x' = if row = p.row ∧ x' = x then c else p.rows row x' := by
  have hrows : (p.setChar x c).rows =
      Function.update p.rows p.row (Function.update (p.rows p.row) x c) := rfl
  by_cases hrow : row = p.row
  · rw [hrows, hrow, Function.update_self, Function.update_apply]
    simp only [true_and]
  · rw [hrows, Function.update_of_ne hrow, if_neg (mt And.left hrow)]

/-! ## The loops -/

def Screen.withCells (s : Screen) (cells : ℕ → ScreenChar) : Screen := { s with cells := cells }

theorem store_eq {index : ℕ} (hindex : index < screenWidth * screenHeight) (cell : ScreenChar) :
    store s index cell = .ok (s.withCells (Function.update s.cells index cell)) := if_pos hindex

theorem setChar_eq {index : ℕ} (hindex : index < screenWidth * screenHeight) (c : UInt8) :
    setChar s index c =
      .ok (s.withCells (Function.update s.cells index { s.cells index with c := c })) := by
  rw [setChar, load, if_pos hindex, ok_bind, store_eq hindex]

/-- The cells after a loop that has come from the index `start` to `stop`. -/
def swept (f cells : ℕ → ScreenChar) (start stop : ℕ) : ℕ → ScreenChar :=
  fun i => if start ≤ i ∧ i < stop then f i else cells i

theorem swept_self (f cells : ℕ → ScreenChar) (start : ℕ) : swept f cells start start = cells := by
  funext i
  exact if_neg (by omega)

theorem swept_of_le (f cells : ℕ → ScreenChar) {start stop i : ℕ} (hi : stop ≤ i) :
    swept f cells start stop i = cells i := if_neg (by omega)

/-- One cell more. -/
theorem update_swept (f cells : ℕ → ScreenChar) {start stop : ℕ} (hle : start ≤ stop) :
    Function.update (swept f cells start stop) stop (f stop) = swept f cells start (stop + 1) := by
  funext i
  by_cases hi : i = stop
  · rw [hi, Function.update_self, swept, if_pos (by omega)]
  · rw [Function.update_of_ne hi, swept, swept]
    congr 1
    exact propext (by omega)

/-- A loop that goes on where another one has stopped. -/
theorem swept_swept (f cells : ℕ → ScreenChar) {start middle stop : ℕ} (hlow : start ≤ middle)
    (hhigh : middle ≤ stop) :
    swept f (swept f cells start middle) middle stop = swept f cells start stop := by
  funext i
  simp only [swept]
  split_ifs <;> first | rfl | omega

theorem swept_congr {f g : ℕ → ScreenChar} (cells : ℕ → ScreenChar) {start : ℕ} (stop : ℕ)
    (hsame : ∀ i ≥ start, f i = g i) : swept f cells start stop = swept g cells start stop := by
  funext i
  by_cases hi : start ≤ i ∧ i < stop
  · rw [swept, swept, if_pos hi, if_pos hi, hsame i hi.1]
  · rw [swept, swept, if_neg hi, if_neg hi]

/-- A loop over the cells of a line. -/
theorem foldlM_swept (f : ℕ → ScreenChar) {turn : Screen → ℕ → Except Fault Screen}
    {start count : ℕ} (hturn : ∀ k < count,
      turn (s.withCells (swept f s.cells start (start + k))) k = .ok (s.withCells
        (Function.update (swept f s.cells start (start + k)) (start + k) (f (start + k))))) :
    (List.range count).foldlM turn s =
      .ok (s.withCells (swept f s.cells start (start + count))) := by
  have hloop := foldlM_range (n := count) turn
    (fun k => s.withCells (swept f s.cells start (start + k))) fun k hk => by
    rw [hturn k hk, update_swept f s.cells (Nat.le_add_right start k), Nat.add_assoc]
  rw [Nat.add_zero start, swept_self] at hloop
  exact hloop

/-- A loop over lines, of which each one is done on the cells that the lines before have left. -/
theorem foldlM_lines (f : (ℕ → ScreenChar) → ℕ → ScreenChar)
    {turn : Screen → ℕ → Except Fault Screen} {count : ℕ}
    (hlocal : ∀ (cells : ℕ → ScreenChar) (stop : ℕ), ∀ i ≥ stop,
      f (swept (f cells) cells 0 stop) i = f cells i)
    (hturn : ∀ y < count, ∀ s, turn s y = .ok (s.withCells
      (swept (f s.cells) s.cells (y * screenWidth) ((y + 1) * screenWidth)))) (s : Screen) :
    (List.range count).foldlM turn s =
      .ok (s.withCells (swept (f s.cells) s.cells 0 (count * screenWidth))) := by
  have hloop := foldlM_range (n := count) turn
    (fun y => s.withCells (swept (f s.cells) s.cells 0 (y * screenWidth))) fun y hy => by
    have hnext : y * screenWidth ≤ (y + 1) * screenWidth :=
      Nat.mul_le_mul_right _ (Nat.le_succ y)
    rw [hturn y hy]
    refine congrArg (fun cells => Except.ok (s.withCells cells)) ?_
    calc swept (f (swept (f s.cells) s.cells 0 (y * screenWidth)))
          (swept (f s.cells) s.cells 0 (y * screenWidth)) (y * screenWidth)
            ((y + 1) * screenWidth)
        = swept (f s.cells) (swept (f s.cells) s.cells 0 (y * screenWidth)) (y * screenWidth)
            ((y + 1) * screenWidth) := swept_congr _ _ (hlocal s.cells _)
      _ = swept (f s.cells) s.cells 0 ((y + 1) * screenWidth) :=
          swept_swept _ _ (Nat.zero_le _) hnext
  rw [Nat.zero_mul, swept_self] at hloop
  exact hloop

/-- A cell that is cleared has its colours still. -/
def cleared (cells : ℕ → ScreenChar) (i : ℕ) : ScreenChar := { cells i with c := space }

/-- A cell that gets what the cell below has. -/
def moved (cells : ℕ → ScreenChar) (i : ℕ) : ScreenChar := cells (i + screenWidth)

theorem cleared_swept (cells : ℕ → ScreenChar) (stop i : ℕ) (hi : i ≥ stop) :
    cleared (swept (cleared cells) cells 0 stop) i = cleared cells i := by
  rw [cleared, swept_of_le _ _ hi, cleared]

theorem moved_swept (cells : ℕ → ScreenChar) (stop i : ℕ) (hi : i ≥ stop) :
    moved (swept (moved cells) cells 0 stop) i = moved cells i := by
  rw [moved, swept_of_le _ _ (hi.trans (Nat.le_add_right _ _)), moved]

theorem clearLine_eq {y : ℕ} (hy : y < screenHeight) (s : Screen) : clearLine s y =
    .ok (s.withCells (swept (cleared s.cells) s.cells (y * screenWidth)
      ((y + 1) * screenWidth))) := by
  have hlimit : y * screenWidth + screenWidth ≤ screenWidth * screenHeight := by
    rw [← Nat.succ_mul, Nat.mul_comm screenWidth]
    exact Nat.mul_le_mul_right _ hy
  rw [clearLine, Nat.succ_mul]
  refine foldlM_swept (cleared s.cells) fun k hk => ?_
  rw [setChar_eq (by omega)]
  simp only [Screen.withCells, swept_of_le _ _ le_rfl, cleared]

/-- The line below has to be as it was. -/
theorem moveLine_eq {y : ℕ} (hy : y + 1 < screenHeight) (s : Screen) : moveLine s y =
    .ok (s.withCells (swept (moved s.cells) s.cells (y * screenWidth)
      ((y + 1) * screenWidth))) := by
  have hlimit : y * screenWidth + screenWidth + screenWidth ≤ screenWidth * screenHeight := by
    rw [← Nat.succ_mul, ← Nat.succ_mul, Nat.mul_comm screenWidth]
    exact Nat.mul_le_mul_right _ hy
  rw [moveLine, Nat.succ_mul]
  refine foldlM_swept (moved s.cells) fun k hk => ?_
  have hbelow : y * screenWidth + screenWidth + k = y * screenWidth + k + screenWidth := by
    omega
  rw [hbelow, load, if_pos (by omega), ok_bind, store_eq (by omega)]
  simp only [Screen.withCells, swept_of_le _ _ (Nat.le_add_right _ _), moved]

/-- The cells after `scroll`. -/
def raised (cells : ℕ → ScreenChar) : ℕ → ScreenChar :=
  swept (moved cells) cells 0 ((screenHeight - 1) * screenWidth)

def scrolled (cells : ℕ → ScreenChar) : ℕ → ScreenChar :=
  swept (cleared (raised cells)) (raised cells) ((screenHeight - 1) * screenWidth)
    (screenHeight * screenWidth)

theorem scroll_eq (s : Screen) :
    scroll s = .ok { s.withCells (scrolled s.cells) with ypos := s.ypos - 1 } := by
  have hmoved : (List.range (screenHeight - 1)).foldlM moveLine s =
      .ok (s.withCells (raised s.cells)) :=
    foldlM_lines moved moved_swept (fun y hy => moveLine_eq (Nat.add_lt_of_lt_sub hy)) s
  rw [scroll, hmoved, ok_bind, clearLine_eq (Nat.sub_lt screenHeight_pos one_pos)]
  rfl

theorem scrolled_of_lt {cells : ℕ → ScreenChar} {y x : ℕ} (hy : y + 1 < screenHeight)
    (hx : x < screenWidth) :
    scrolled cells (y * screenWidth + x) = cells ((y + 1) * screenWidth + x) := by
  have hindex : y * screenWidth + x < (screenHeight - 1) * screenWidth := by
    simp only [screenHeight, screenWidth] at hy hx ⊢
    omega
  have hbelow : y * screenWidth + x + screenWidth = (y + 1) * screenWidth + x := by
    rw [Nat.succ_mul]
    omega
  calc scrolled cells (y * screenWidth + x)
      = raised cells (y * screenWidth + x) := if_neg (by omega)
    _ = moved cells (y * screenWidth + x) := if_pos ⟨Nat.zero_le _, hindex⟩
    _ = cells ((y + 1) * screenWidth + x) := congrArg cells hbelow

theorem scrolled_last {cells : ℕ → ScreenChar} {x : ℕ} (hx : x < screenWidth) :
    (scrolled cells ((screenHeight - 1) * screenWidth + x)).c = space := by
  have hindex : (screenHeight - 1) * screenWidth + x < screenHeight * screenWidth := by
    simp only [screenHeight, screenWidth] at hx ⊢
    omega
  rw [scrolled, swept, if_pos ⟨Nat.le_add_right _ _, hindex⟩]
  rfl

theorem clearScreen_eq (cells : ℕ → ScreenChar) (cursor : ℕ) : clearScreen cells cursor =
    .ok ⟨swept (cleared cells) cells 0 (screenHeight * screenWidth), 0, 0, 0⟩ := by
  have hcleared := foldlM_lines cleared cleared_swept (fun y hy => clearLine_eq hy)
    ⟨cells, 0, 0, cursor⟩
  rw [clearScreen, hcleared, ok_bind]
  rfl

/-! ## The window -/

/-- The screen shows the page from the row `base` on.  Only a cursor at the lower end has moved the
window, and the page is blank below it. -/
structure Shows (base : ℕ) (p : Page) (s : Screen) : Prop where
  xpos : s.xpos = p.xpos
  ypos : base + s.ypos = p.row
  moved : base = 0 ∨ screenHeight ≤ s.ypos + 1
  cells : ∀ y < screenHeight, ∀ x < screenWidth,
    (s.cells (y * screenWidth + x)).c = p.rows (base + y) x
  below : ∀ row ≥ base + screenHeight, ∀ x, p.rows row x = space

namespace Shows

theorem top_eq (hshows : Shows base p s) (hypos : s.ypos < screenHeight) : p.top = base := by
  have hrow := hshows.ypos
  have hmoved := hshows.moved
  rw [Page.top]
  omega

theorem index_lt {x y : ℕ} (hx : x < screenWidth) (hy : y < screenHeight) :
    y * screenWidth + x < screenWidth * screenHeight := by
  simp only [screenWidth, screenHeight] at *
  omega

theorem index_inj {x x' y y' : ℕ} (hx : x < screenWidth) (hx' : x' < screenWidth) :
    y * screenWidth + x = y' * screenWidth + x' ↔ y = y' ∧ x = x' := by
  simp only [screenWidth] at *
  omega

/-- A character in the line of the cursor. -/
theorem setChar (hshows : Shows base p s) {x : ℕ} (hx : x < screenWidth)
    (hypos : s.ypos < screenHeight) (c : UInt8) :
    Ensures (fun _ => False) (Console.setChar s (s.ypos * screenWidth + x) c) fun s' =>
      Shows base (p.setChar x c) s' ∧ s'.ypos = s.ypos := by
  rw [setChar_eq (index_lt hx hypos), ensures_ok]
  have hrow := hshows.ypos
  refine ⟨⟨hshows.xpos, hrow, hshows.moved, fun y hy x' hx' => ?_, fun row hbelow x' => ?_⟩, rfl⟩
  · by_cases hat : y = s.ypos ∧ x' = x
    · rw [hat.1, hat.2, Screen.withCells, Page.setChar]
      simp only [hrow, Function.update_self]
    · have hpage : (p.setChar x c).rows (base + y) x' = p.rows (base + y) x' := by
        rw [Page.setChar_rows, if_neg]
        omega
      rw [hpage, ← hshows.cells y hy x' hx']
      exact congrArg ScreenChar.c (Function.update_of_ne (mt (index_inj hx' hx).mp hat) _ _)
  · rw [Page.setChar_rows, if_neg (by omega)]
    exact hshows.below row hbelow x'

/-- The cursor goes on in its line. -/
theorem withX (hshows : Shows base p s) (x : ℕ) :
    Shows base { p with xpos := x } { s with xpos := x } :=
  ⟨rfl, hshows.ypos, hshows.moved, hshows.cells, hshows.below⟩

/-- The cursor goes to the next line. -/
theorem nextLine (hshows : Shows base p s) :
    Shows base { p with xpos := 0, row := p.row + 1 } { s with xpos := 0, ypos := s.ypos + 1 } :=
  ⟨rfl, congrArg Nat.succ hshows.ypos, hshows.moved.imp id (Nat.le_trans · (Nat.le_succ _)),
    hshows.cells, hshows.below⟩

theorem display (hshows : Shows base p s) (hxpos : s.xpos < screenWidth)
    (hypos : s.ypos < screenHeight) (c : UInt8) :
    Ensures (fun _ => False) (Console.display s c) fun s' => Shows base (p.display c) s' ∧
      s'.ypos ≤ screenHeight ∧ (screenWidth ≤ s'.xpos → s'.ypos < screenHeight) := by
  rw [Console.display, Page.display, ← hshows.xpos]
  by_cases hnewline : c = newline
  · rw [if_pos hnewline, if_pos hnewline, ensures_ok]
    exact ⟨hshows.nextLine, hypos, fun hover => absurd screenWidth_pos hover.not_gt⟩
  rw [if_neg hnewline, if_neg hnewline]
  by_cases htab : c = tab
  · rw [if_pos htab, if_pos htab, ensures_ok]
    exact ⟨hshows.withX _, hypos.le, fun _ => hypos⟩
  rw [if_neg htab, if_neg htab]
  by_cases hback : c = backspace ∧ s.xpos ≠ 0
  · rw [if_pos hback, if_pos hback]
    refine ensures_weaken ((hshows.withX (s.xpos - 1)).setChar (by omega) hypos 0) ?_
    intro s' hset
    exact ⟨hset.1, by rw [hset.2]; exact ⟨hypos.le, fun _ => hypos⟩⟩
  · rw [if_neg hback, if_neg hback]
    refine ensures_bind (hshows.setChar hxpos hypos c) ?_
    intro s' hset
    have hx : s'.xpos = s.xpos := hset.1.xpos.trans hshows.xpos.symm
    rw [pure_eq_ok, ensures_ok, hx]
    exact ⟨hset.1.withX _, by rw [hset.2]; exact ⟨hypos.le, fun _ => hypos⟩⟩

theorem wrap (hshows : Shows base p s) (hypos : s.ypos ≤ screenHeight)
    (hover : screenWidth ≤ s.xpos → s.ypos < screenHeight) :
    Shows base p.wrap (Console.wrap s) ∧ (Console.wrap s).xpos < screenWidth ∧
      (Console.wrap s).ypos ≤ screenHeight := by
  rw [Console.wrap, Page.wrap, ← hshows.xpos]
  by_cases hend : screenWidth ≤ s.xpos
  · rw [if_pos hend, if_pos hend]
    exact ⟨hshows.nextLine, screenWidth_pos, hover hend⟩
  · rw [if_neg hend, if_neg hend]
    exact ⟨hshows, not_le.mp hend, hypos⟩

/-- The window moves down when the cursor is below it. -/
theorem scroll (hshows : Shows base p s) (hypos : s.ypos = screenHeight) :
    Shows (base + 1) p { s.withCells (scrolled s.cells) with ypos := s.ypos - 1 } := by
  have hrow := hshows.ypos
  have hheight := screenHeight_pos
  refine ⟨hshows.xpos, ?_, Or.inr ?_, fun y hy x hx => ?_, fun row hbelow => ?_⟩
  · show base + 1 + (s.ypos - 1) = p.row
    omega
  · show screenHeight ≤ s.ypos - 1 + 1
    omega
  · rw [Nat.add_assoc, Nat.add_comm 1 y]
    by_cases hlast : y + 1 < screenHeight
    · rw [← hshows.cells (y + 1) hlast x hx]
      exact congrArg ScreenChar.c (scrolled_of_lt hlast hx)
    · have hy' : y = screenHeight - 1 := by omega
      rw [hy', hshows.below _ (by omega) x]
      exact scrolled_last hx
  · exact hshows.below row (by omega)

end Shows

/-- The screen between two characters. -/
def Settled (p : Page) (s : Screen) : Prop :=
  ∃ base, Shows base p s ∧ s.xpos < screenWidth ∧ s.ypos < screenHeight

theorem Settled.putChar (hsettled : Settled p s) (c : UInt8) :
    Ensures (fun _ => False) (Console.putChar s c) (Settled (p.putChar c)) := by
  obtain ⟨base, hshows, hxpos, hypos⟩ := hsettled
  refine ensures_bind (hshows.display hxpos hypos c) ?_
  intro s' hdisplay
  have hwrap := hdisplay.1.wrap hdisplay.2.1 hdisplay.2.2
  by_cases hend : screenHeight ≤ (Console.wrap s').ypos
  · have hfull : (Console.wrap s').ypos = screenHeight := le_antisymm hwrap.2.2 hend
    rw [if_pos hend, scroll_eq, ensures_ok]
    refine ⟨base + 1, hwrap.1.scroll hfull, hwrap.2.1, ?_⟩
    rw [hfull]
    exact Nat.sub_lt screenHeight_pos one_pos
  · rw [if_neg hend, pure_eq_ok, ensures_ok]
    exact ⟨base, hwrap.1, hwrap.2.1, not_le.mp hend⟩

/-- A text of any length. -/
theorem Settled.putChars {text : List UInt8} (hsettled : Settled (Page.typed text) s)
    (data : List UInt8) :
    Ensures (fun _ => False) (data.foldlM Console.putChar s)
      (Settled (Page.typed (text ++ data))) := by
  refine ensures_foldlM (fun done => Settled (Page.typed (text ++ done))) ?_ ?_
  · rw [List.append_nil]
    exact hsettled
  · intro done c rest s' _ hdone
    have hnext : Page.typed (text ++ (done ++ [c])) = (Page.typed (text ++ done)).putChar c := by
      rw [← List.append_assoc, Page.typed, List.foldl_append]
      rfl
    rw [hnext]
    exact hdone.putChar c

theorem Settled.writeToScreen {text : List UInt8} (hsettled : Settled (Page.typed text) s)
    (data : List UInt8) :
    Ensures (fun _ => False) (Console.writeToScreen s data)
      (Settled (Page.typed (text ++ data))) := by
  refine ensures_bind (hsettled.putChars data) ?_
  intro s' hwritten
  rw [pure_eq_ok, ensures_ok]
  obtain ⟨base, hshows, hinside⟩ := hwritten
  exact ⟨base, ⟨hshows.xpos, hshows.ypos, hshows.moved, hshows.cells, hshows.below⟩, hinside⟩

theorem settled_clearScreen (cells : ℕ → ScreenChar) (cursor : ℕ) :
    Ensures (fun _ => False) (clearScreen cells cursor) (Settled (Page.typed [])) := by
  rw [clearScreen_eq, ensures_ok]
  refine ⟨0, ⟨rfl, rfl, Or.inl rfl, fun y hy x hx => ?_, fun _ _ _ => rfl⟩, screenWidth_pos,
    screenHeight_pos⟩
  have hindex : y * screenWidth + x < screenHeight * screenWidth :=
    (Shows.index_lt hx hy).trans_eq (Nat.mul_comm _ _)
  exact congrArg ScreenChar.c (if_pos ⟨Nat.zero_le _, hindex⟩)

/-- After any calls of `write_to_screen`, and after each character of one more, the screen shows the
last rows of the page that have been started. -/
theorem writeToScreen_shows_page (cells : ℕ → ScreenChar) (cursor : ℕ) (calls : List (List UInt8))
    (data : List UInt8) :
    ∃ s, (do
      let s ← clearScreen cells cursor
      let s ← calls.foldlM writeToScreen s
      data.foldlM putChar s) = .ok s ∧
      s.xpos < screenWidth ∧ s.ypos < screenHeight ∧
      s.xpos = (Page.typed (calls.flatten ++ data)).xpos ∧
      (Page.typed (calls.flatten ++ data)).top + s.ypos =
        (Page.typed (calls.flatten ++ data)).row ∧
      ∀ y < screenHeight, ∀ x < screenWidth, (s.cells (y * screenWidth + x)).c =
        (Page.typed (calls.flatten ++ data)).rows
          ((Page.typed (calls.flatten ++ data)).top + y) x := by
  have hcalls (s : Screen) (hclear : Settled (Page.typed []) s) :
      Ensures (fun _ => False) (calls.foldlM writeToScreen s)
        (Settled (Page.typed calls.flatten)) := by
    refine ensures_foldlM (fun done => Settled (Page.typed done.flatten)) hclear ?_
    intro done call rest s' _ hdone
    rw [List.flatten_append, List.flatten_singleton]
    exact hdone.writeToScreen call
  have hsettled := exists_ok_of_ensures <| ensures_bind (settled_clearScreen cells cursor)
    fun s hclear => ensures_bind (hcalls s hclear) fun s' hdone => hdone.putChars data
  obtain ⟨s, hrun, base, hshows, hxpos, hypos⟩ := hsettled
  rw [hshows.top_eq hypos]
  exact ⟨s, hrun, hxpos, hypos, hshows.xpos, hshows.ypos, hshows.cells⟩

end Rhythmos.Kernel.Console
