namespace MiniLisp

/-- How many levels of nesting the reader accepts and the printer prints in full. -/
def maxFormDepth : Nat := 512

/-- How many evaluations may be in progress inside one another. -/
def maxEvalDepth : Nat := 200

end MiniLisp
