import Mathlib.Data.List.Basic

/-!
# Words with quotes

A text is cut into words at a space; a word that begins with a quote ends at the
next quote instead, and may contain spaces.  `words` reads the text once, from
left to right, and `renderAll` writes words down again, with any number of spaces
in between.
-/

namespace PastWork
namespace Words

universe u

variable {α : Type u} [DecidableEq α]

/-- Where a scan is: between two words, or inside one that ends at `stop`. -/
inductive Mode (α : Type u) where
  | between
  | inside (stop : α) (w : List α)

/-- The words from a mode on.  A word without its end does not count. -/
def wordsFrom (space quote : α) : Mode α → List α → List (List α)
  | _, [] => []
  | .between, c :: s =>
      if c = space then wordsFrom space quote .between s
      else if c = quote then wordsFrom space quote (.inside quote []) s
      else wordsFrom space quote (.inside space [c]) s
  | .inside stop w, c :: s =>
      if c = stop then w :: wordsFrom space quote .between s
      else wordsFrom space quote (.inside stop (w ++ [c])) s

/-- The words of a text. -/
def words (space quote : α) (s : List α) : List (List α) :=
  wordsFrom space quote .between s

/-- A word with the spaces in front of it, to be written with or without
quotes. -/
structure Token (α : Type u) where
  lead : Nat
  word : List α
  quoted : Bool

namespace Token

/-- The word with its quotes. -/
def text (quote : α) (t : Token α) : List α :=
  if t.quoted then quote :: (t.word ++ [quote]) else t.word

def render (space quote : α) (t : Token α) : List α :=
  List.replicate t.lead space ++ t.text quote

/-- The word can be written in this way. -/
def Valid (space quote : α) (t : Token α) : Prop :=
  if t.quoted then quote ∉ t.word
  else t.word ≠ [] ∧ space ∉ t.word ∧ t.word.head? ≠ some quote

instance (space quote : α) (t : Token α) : Decidable (t.Valid space quote) := by
  unfold Valid
  infer_instance

end Token

def renderAll (space quote : α) (tokens : List (Token α)) : List α :=
  (tokens.map (Token.render space quote)).flatten

section Scanning

variable {space quote stop c : α} {w v s : List α}

@[simp] theorem words_nil :
    words space quote [] = [] := by
  rfl

@[simp] theorem words_space :
    words space quote (space :: s) = words space quote s := by
  simp [words, wordsFrom]

@[simp] theorem words_spaces
    (n : Nat) (s : List α) :
    words space quote (List.replicate n space ++ s) = words space quote s := by
  induction n with
  | zero =>
      rfl
  | succ n ih =>
      rw [List.replicate_succ, List.cons_append, words_space, ih]

/-- A word goes on up to its end. -/
theorem wordsFrom_inside
    (hstop : stop ∉ v) :
    wordsFrom space quote (.inside stop w) (v ++ stop :: s) =
      (w ++ v) :: words space quote s := by
  induction v generalizing w with
  | nil =>
      simp [wordsFrom, words]
  | cons c v ih =>
      rw [List.mem_cons, not_or] at hstop
      rw [List.cons_append, wordsFrom, if_neg (Ne.symm hstop.1), ih hstop.2]
      simp

theorem wordsFrom_unended
    (hstop : stop ∉ v) :
    wordsFrom space quote (.inside stop w) v = [] := by
  induction v generalizing w with
  | nil =>
      rfl
  | cons c v ih =>
      rw [List.mem_cons, not_or] at hstop
      rw [wordsFrom, if_neg (Ne.symm hstop.1), ih hstop.2]

/-- The step into a word without quotes. -/
theorem words_bare
    (hspace : c ≠ space) (hquote : c ≠ quote) :
    words space quote (c :: s) =
      wordsFrom space quote (.inside space [c]) s := by
  rw [words, wordsFrom, if_neg hspace, if_neg hquote]

theorem words_quote
    (hne : quote ≠ space) :
    words space quote (quote :: s) =
      wordsFrom space quote (.inside quote []) s := by
  rw [words, wordsFrom, if_neg hne, if_pos rfl]

end Scanning

section Rendering

variable {space quote : α} {t : Token α} {tokens : List (Token α)} {s : List α}

/-- A word that is written down is read again. -/
theorem words_render
    (hne : quote ≠ space)
    (hvalid : t.Valid space quote) :
    words space quote (t.render space quote ++ space :: s) =
      t.word :: words space quote s := by
  rw [Token.render, List.append_assoc, words_spaces]
  unfold Token.Valid at hvalid
  unfold Token.text
  cases hquoted : t.quoted with
  | true =>
      rw [if_pos hquoted] at hvalid
      rw [if_pos rfl, List.cons_append, words_quote hne, List.append_assoc]
      exact (wordsFrom_inside hvalid).trans (by simp)
  | false =>
      rw [hquoted, if_neg Bool.false_ne_true] at hvalid
      rw [if_neg Bool.false_ne_true]
      obtain ⟨hnil, hspace, hhead⟩ := hvalid
      cases hword : t.word with
      | nil =>
          exact absurd hword hnil
      | cons c v =>
          rw [hword, List.mem_cons, not_or] at hspace
          have hquote : c ≠ quote := by
            rintro rfl
            exact hhead (by rw [hword, List.head?_cons])
          rw [List.cons_append, words_bare (Ne.symm hspace.1) hquote,
            wordsFrom_inside hspace.2]
          rfl

/-- Words that are written down one after another, with a space in between, are
read again. -/
theorem words_renderAll
    (hne : quote ≠ space)
    (hvalid : ∀ t ∈ tokens, t.Valid space quote)
    (hapart : ∀ t ∈ tokens.tail, 1 ≤ t.lead) :
    words space quote (renderAll space quote tokens ++ space :: s) =
      tokens.map Token.word ++ words space quote s := by
  induction tokens with
  | nil =>
      simp [renderAll]
  | cons t tokens ih =>
      have hbehind : ∃ r,
          renderAll space quote tokens ++ space :: s = space :: r := by
        cases tokens with
        | nil =>
            exact ⟨s, rfl⟩
        | cons u tokens =>
            obtain ⟨n, hn⟩ := Nat.exists_eq_add_of_le' (hapart u (by simp))
            refine ⟨List.replicate n space ++ u.text quote ++
              (renderAll space quote tokens ++ space :: s), ?_⟩
            simp [renderAll, Token.render, hn, List.replicate_succ]
      have hrest : ∀ u ∈ tokens.tail, 1 ≤ u.lead := by
        intro u hu
        exact hapart u (List.mem_of_mem_tail hu)
      have htail := ih (fun u hu => hvalid u (List.mem_cons_of_mem t hu)) hrest
      obtain ⟨r, hr⟩ := hbehind
      have hsplit : renderAll space quote (t :: tokens) ++ space :: s =
          t.render space quote ++ space :: r := by
        rw [← hr]
        simp [renderAll]
      rw [hr, words_space] at htail
      rw [hsplit, words_render hne (hvalid t List.mem_cons_self), htail]
      rfl

end Rendering

end Words
end PastWork
