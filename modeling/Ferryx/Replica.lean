import Ferryx.Fxsh.Types

/-! # Terminal state (`session-core/src/replica.rs`) -/

namespace Ferryx
open Std Fxsh

def sMax : Nat := 64 * 1024 * 1024

def maxCols : UInt16 := 1024

def maxRows : UInt16 := 512

def clamp (x lo hi : UInt16) : UInt16 := if x < lo then lo else if hi < x then hi else x

def normalizeSize (cols rows : UInt16) : UInt16 × UInt16 := (clamp cols 1 maxCols, clamp rows 1 maxRows)

theorem clamp_clamp {x lo hi : UInt16} (h : lo ≤ hi) : clamp (clamp x lo hi) lo hi = clamp x lo hi := by
  grind [clamp, UInt16.lt_iff_toNat_lt, UInt16.le_iff_toNat_le]

theorem normalizeSize_normalizeSize (cols rows : UInt16) :
    normalizeSize (normalizeSize cols rows).1 (normalizeSize cols rows).2 = normalizeSize cols rows :=
  Prod.ext (clamp_clamp (by decide)) (clamp_clamp (by decide))

def blankRow (cols : UInt16) : RowData := ⟨false, List.replicate cols.toNat .blank⟩

structure Replica where
  cols : UInt16
  rows : UInt16
  screen : List RowData
  cursor : Cursor
  modes : Modes
  palette : Palette
  title : String
  hyperlinks : ExtTreeMap UInt32 String
  scrollback : List (UInt64 × RowData)
  exitInfo : Option ExitInfo

def resized {α : Type} (n : Nat) (x : α) (l : List α) : List α := l.take n ++ List.replicate (n - l.length) x

def addLinks (m : ExtTreeMap UInt32 String) (hs : List Hyperlink) : ExtTreeMap UInt32 String :=
  hs.foldl (fun m h => m.insert h.id h.uri) m

namespace Replica

def fromBody (b : SBody) : Replica where
  cols := b.cols
  rows := b.rows
  screen := b.screen
  cursor := b.cursor
  modes := b.modes
  palette := b.palette
  title := b.title
  hyperlinks := addLinks ∅ b.hyperlinks
  scrollback := b.scrollback
  exitInfo := b.exitInfo

def referencedLinks (r : Replica) : List UInt32 :=
  ((r.screen ++ r.scrollback.map (·.2)).flatMap fun row => row.cells.map (·.hyperlinkId)).filter (· ≠ 0)

def pruneHyperlinks (r : Replica) : Replica :=
  { r with hyperlinks := r.hyperlinks.filter fun id _ => r.referencedLinks.contains id }

def resize (r : Replica) (cols rows : UInt16) : Replica :=
  { r with
    cols, rows
    screen := (resized rows.toNat (blankRow cols) r.screen).map fun row =>
      { row with cells := resized cols.toNat .blank row.cells } }

def evict (scrollback : List (UInt64 × RowData)) : Option UInt64 → List (UInt64 × RowData)
  | some before => scrollback.dropWhile fun l => l.1 < before
  | none => scrollback

def append (scrollback : List (UInt64 × RowData)) (l : UInt64 × RowData) : List (UInt64 × RowData) :=
  if scrollback.getLast?.all fun last => last.1 < l.1 then scrollback ++ [l] else scrollback

def applyDelta (r : Replica) (d : Delta) : Replica × List UiEvent :=
  let r := match d.size with
    | some (cols, rows) => r.resize cols rows
    | none => r
  let r := { r with
    cursor := d.cursor.getD r.cursor
    modes := d.modes.getD r.modes
    palette := d.palette.getD r.palette
    title := d.title.getD r.title
    screen := d.dirtyRows.foldl (fun screen (row : UInt16 × RowData) => screen.set row.1.toNat row.2) r.screen
    hyperlinks := addLinks r.hyperlinks d.hyperlinksAdded
    scrollback := d.scrollbackAppended.foldl append (evict r.scrollback d.scrollbackEvictedBefore)
    exitInfo := d.exitInfo.or r.exitInfo }
  (r.pruneHyperlinks, d.uiEvents)

end Replica

end Ferryx
