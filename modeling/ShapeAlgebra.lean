import ShapeAlgebra.Declaration.Redeclared
import ShapeAlgebra.Main
import ShapeAlgebra.Proofs.Command.Derivation
import ShapeAlgebra.Proofs.Declaration.Calls
import ShapeAlgebra.Proofs.Declaration.Flags
import ShapeAlgebra.Proofs.Declaration.Printed
import ShapeAlgebra.Proofs.Declaration.Referring
import ShapeAlgebra.Proofs.Declaration.Relisted
import ShapeAlgebra.Proofs.Declaration.Spacing
import ShapeAlgebra.Proofs.Declaration.Substitution
import ShapeAlgebra.Proofs.Record.Assignment
import ShapeAlgebra.Proofs.Rule.Absorption
import ShapeAlgebra.Proofs.Rule.Acceptance
import ShapeAlgebra.Proofs.Rule.Distribution
import ShapeAlgebra.Proofs.Rule.Reach
import ShapeAlgebra.Proofs.Schema.Built
import ShapeAlgebra.Proofs.Schema.Hash
import ShapeAlgebra.Proofs.Schema.Legible
import ShapeAlgebra.Proofs.Schema.Uniting
