import MiniLisp.Text.ClusterClass

namespace MiniLisp

/-- How far a sequence of pictographs has got. -/
inductive PictographRun where
  | none
  /-- A pictograph and what extends it. -/
  | drawn
  /-- The same with a joiner, which another pictograph may follow. -/
  | joined
  deriving DecidableEq

/-- How far a sequence of consonants has got. -/
inductive ConjunctRun where
  | none
  | consonant
  /-- A consonant with a linker, which another consonant may follow. -/
  | linked
  deriving DecidableEq

/-- What of a line decides whether the next character joins to it. -/
structure ClusterEdge where
  last : ClusterClass
  /-- The line ends in an odd number of regional letters. -/
  oddRegional : Bool
  pictographs : PictographRun
  conjunct : ConjunctRun

namespace ClusterEdge

def start : ClusterEdge :=
  ⟨.control, false, .none, .none⟩

/-- The edge after one more character. -/
def advance (edge : ClusterEdge) (c : Char) : ClusterEdge where
  last := clusterClass c
  oddRegional := clusterClass c = .regional && !edge.oddRegional
  pictographs :=
    match clusterClass c, edge.pictographs with
    | .pictograph, _ => .drawn
    | .extend, .drawn => .drawn
    | .joiner, .drawn => .joined
    | _, _ => .none
  conjunct :=
    match conjunctClass c, edge.conjunct with
    | .consonant, _ => .consonant
    | .linker, .consonant => .linked
    | .linker, .linked => .linked
    | .extend, run => run
    | _, _ => .none

/-- Whether the next character belongs to the cluster before it. -/
def joins (edge : ClusterEdge) (c : Char) : Bool :=
  match edge.last, clusterClass c with
  | .control, _ | _, .control => false
  | _, .extend | _, .joiner | _, .spacing => true
  | .lead, _ => true
  | .hangulL, .hangulL | .hangulL, .hangulV | .hangulL, .hangulLV | .hangulL, .hangulLVT => true
  | .hangulV, .hangulV | .hangulV, .hangulT | .hangulLV, .hangulV | .hangulLV, .hangulT => true
  | .hangulT, .hangulT | .hangulLVT, .hangulT => true
  | _, .regional => edge.oddRegional
  | _, .pictograph => edge.pictographs = .joined
  | _, _ => edge.conjunct = .linked && conjunctClass c = .consonant

end ClusterEdge

/-- The clusters, the last one first, each with its last character first, after one more. -/
def addToClusters (c : Char) (joins : Bool) : List (List Char) → List (List Char)
  | cluster :: before => if joins then (c :: cluster) :: before else [c] :: cluster :: before
  | [] => [[c]]

/-- Splits on from the edge. `done` holds the clusters so far, the last one first, each with its last
character first. -/
def splitClusters (edge : ClusterEdge) (done : List (List Char)) : List Char → List (List Char)
  | [] => (done.map List.reverse).reverse
  | c :: cs => splitClusters (edge.advance c) (addToClusters c (edge.joins c) done) cs

/-- The grapheme clusters of a line in order, the parts that a reader takes for one character each. A line
holds no line feed. -/
def clusters (line : List Char) : List (List Char) :=
  splitClusters .start [] line

end MiniLisp
