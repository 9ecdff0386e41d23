/-
# A text with a cursor

A text that is being edited is the text before the cursor and the text after
it. Each command is said on the two: what is typed goes to the end of the
first, Backspace takes its last item away, and moving the cursor passes items
from one to the other, so that the text as a whole stays (`text_left`,
`text_right`, `text_home`, `text_toEnd`).

Key definitions: `Editor`, `Editor.text`, `Editor.insert`, `Editor.back`.
-/
import Mathlib.Data.List.Basic
import Mathlib.Tactic.Common

/-- A text with a cursor in it: the text before the cursor, from the cursor
on backwards, and the text after it. -/
structure Editor (α : Type*) where
  before : List α
  after : List α

namespace Editor

variable {α : Type*}

/-- Nothing is typed yet. -/
def empty : Editor α := ⟨[], []⟩

/-- The text as a whole. -/
def text (e : Editor α) : List α := e.before.reverse ++ e.after

/-- An item is inserted at the cursor. -/
def insert (x : α) (e : Editor α) : Editor α := ⟨x :: e.before, e.after⟩

/-- The item before the cursor is removed, if there is one. -/
def back : Editor α → Editor α
  | ⟨[], after⟩ => ⟨[], after⟩
  | ⟨_ :: before, after⟩ => ⟨before, after⟩

/-- The cursor moves to the left, if it can. -/
def left : Editor α → Editor α
  | ⟨[], after⟩ => ⟨[], after⟩
  | ⟨x :: before, after⟩ => ⟨before, x :: after⟩

/-- The cursor moves to the right, if it can. -/
def right : Editor α → Editor α
  | ⟨before, []⟩ => ⟨before, []⟩
  | ⟨before, x :: after⟩ => ⟨x :: before, after⟩

/-- The cursor moves to the beginning. -/
def home (e : Editor α) : Editor α := ⟨[], e.text⟩

/-- The cursor moves to the end. -/
def toEnd (e : Editor α) : Editor α := ⟨e.text.reverse, []⟩

@[simp] theorem text_left (e : Editor α) : e.left.text = e.text := by
  obtain ⟨before, after⟩ := e
  cases before with
  | nil => rfl
  | cons x before => simp [left, text]

@[simp] theorem text_right (e : Editor α) : e.right.text = e.text := by
  obtain ⟨before, after⟩ := e
  cases after with
  | nil => rfl
  | cons x after => simp [right, text]

@[simp] theorem text_home (e : Editor α) : e.home.text = e.text := rfl

@[simp] theorem text_toEnd (e : Editor α) : e.toEnd.text = e.text := by
  simp [toEnd, text]

theorem text_length (e : Editor α) : e.text.length = e.before.length + e.after.length := by
  simp [text]

theorem before_length_left (e : Editor α) : e.left.before.length = e.before.length - 1 := by
  obtain ⟨before, after⟩ := e
  cases before with
  | nil => rfl
  | cons x before => rfl

theorem before_length_right (e : Editor α) :
    e.right.before.length = if e.before.length < e.text.length then e.before.length + 1 else e.before.length := by
  obtain ⟨before, after⟩ := e
  rw [text_length]
  cases after with
  | nil => simp [right]
  | cons x after => simp [right]

theorem before_length_toEnd (e : Editor α) : e.toEnd.before.length = e.text.length :=
  List.length_reverse

end Editor
