/-! Paths as text, and the route that a path prescribes through the directories. -/

namespace LogStore

abbrev Name := List Char

abbrev Path := List Char

/-- Where to go: through `parents`, one after another, and then to `last`. -/
structure Route where
  parents : List Name
  last : Name
  /-- The path ends in a slash, so it speaks of a directory. -/
  slash : Bool
  deriving DecidableEq, Repr

namespace Path

/-- The pieces between slashes, empty ones included. -/
def split : Path → List Name
  | [] => [[]]
  | c :: cs =>
    if c = '/' then [] :: split cs
    else
      match split cs with
      | [] => [[c]]
      | n :: ns => (c :: n) :: ns

def here : Name := ['.']

def above : Name := ['.', '.']

/-- The components that name something; a single dot names nothing new. -/
def names (p : Path) : List Name := p.split.filter fun n => n ≠ [] && n ≠ here

/-- The empty path leads nowhere; slashes alone lead to the root. -/
def route? (p : Path) : Option Route :=
  if p = [] then none
  else
    let pieces := p.split.filter (· ≠ [])
    some ⟨pieces.dropLast, pieces.getLast?.getD here, p.getLast? = some '/'⟩

def join (names : List Name) : Path := ['/'].intercalate names

def named (pieces : List Name) : List Name := pieces.dropWhile fun n => n = [] || n = here

/-- The path of the directory that has to exist for a file at this path. -/
def parent (p : Path) : Path := join (named ((named p.split.reverse).drop 1)).reverse

def beside (p : Path) (ending : String) : Path := p ++ ending.toList

theorem split_ne_nil (p : Path) : split p ≠ [] := by
  cases p with
  | nil => simp [split]
  | cons c cs =>
    simp only [split]
    split
    · simp
    · split <;> simp

/-- Text without slashes, put behind a path, belongs to its last piece. -/
theorem split_append (p q : Path) (h : '/' ∉ q) :
    split (p ++ q) = (split p).dropLast ++ [(split p).getLastD [] ++ q] := by
  induction p with
  | nil =>
    induction q with
    | nil => rfl
    | cons c q ih =>
      simp only [List.mem_cons, not_or] at h
      have hq := ih h.2
      simp only [List.nil_append] at hq
      simp only [List.nil_append, split, if_neg (Ne.symm h.1), hq]
      rfl
  | cons c p ih =>
    simp only [List.cons_append, split]
    cases hs : split p with
    | nil => exact absurd hs (split_ne_nil p)
    | cons n ns =>
      rw [hs] at ih
      split
      · simp [ih]
      · cases ns <;> simp_all

end Path

def Name.size : Name → Nat
  | [] => 0
  | c :: n => c.utf8Size + size n

@[simp] theorem Name.size_append (m n : Name) : Name.size (m ++ n) = m.size + n.size := by
  induction m with
  | nil => simp [Name.size]
  | cons c m ih => simp only [List.cons_append, Name.size, ih, Nat.add_assoc]

def Name.tooLong (n : Name) : Bool := 255 < n.size

end LogStore
