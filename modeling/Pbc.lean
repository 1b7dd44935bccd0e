import Pbc.Algebra.Calls
import Pbc.Algebra.CyclicDoubles
import Pbc.Algebra.Frobenius
import Pbc.Algebra.Generator
import Pbc.Algebra.MonicCoefficients
import Pbc.Algebra.MonicQuotient
import Pbc.Algebra.Numerals
import Pbc.Algebra.QuadraticRoots
import Pbc.Algebra.Rabin
import Pbc.Algebra.ResidueSymbol
import Pbc.Algebra.RingCalls
import Pbc.Algebra.ScalarClass
import Pbc.Algebra.SymmetricPairing
import Pbc.Arith.BaseTable
import Pbc.Arith.Degenerate
import Pbc.Arith.Elimination
import Pbc.Arith.FactorBase
import Pbc.Arith.FactorLists
import Pbc.Arith.FastFp
import Pbc.Arith.FastLimbs
import Pbc.Arith.FastNaive
import Pbc.Arith.FasterFp
import Pbc.Arith.Field
import Pbc.Arith.FieldQuadratic
import Pbc.Arith.FlaggedFp
import Pbc.Arith.FlaggedStore
import Pbc.Arith.Fp
import Pbc.Arith.FpBytes
import Pbc.Arith.FpPow
import Pbc.Arith.Garner
import Pbc.Arith.HashExpansion
import Pbc.Arith.IndexCalculus
import Pbc.Arith.Irreducible
import Pbc.Arith.LimbRuns
import Pbc.Arith.MontExact
import Pbc.Arith.MontFp
import Pbc.Arith.Montgomery
import Pbc.Arith.MultiPow
import Pbc.Arith.Multiples
import Pbc.Arith.NaiveFp
import Pbc.Arith.NumberText
import Pbc.Arith.Poly
import Pbc.Arith.PolyBytes
import Pbc.Arith.PolyEuclid
import Pbc.Arith.PolyRuns
import Pbc.Arith.Polymod
import Pbc.Arith.PolymodSquare
import Pbc.Arith.PolymodStore
import Pbc.Arith.Pow
import Pbc.Arith.PowApart
import Pbc.Arith.PowCalls
import Pbc.Arith.QuadraticSqrt
import Pbc.Arith.QuadraticStore
import Pbc.Arith.Random
import Pbc.Arith.ScratchArrays
import Pbc.Arith.Sign
import Pbc.Arith.SmoothRelations
import Pbc.Arith.Text
import Pbc.Arith.TinyExact
import Pbc.Arith.TinyFp
import Pbc.Arith.TonelliStore
import Pbc.Arith.TrialDivide
import Pbc.Arith.ZBytes
import Pbc.Calc.Arithmetic
import Pbc.Calc.Caller
import Pbc.Calc.CallerTokens
import Pbc.Calc.Dlog
import Pbc.Calc.Execute
import Pbc.Calc.Grammar
import Pbc.Calc.Lexer
import Pbc.Calc.LexerBounds
import Pbc.Calc.LexerRuns
import Pbc.Calc.LexerTokens
import Pbc.Calc.Machine
import Pbc.Calc.Ownership
import Pbc.Calc.Parse
import Pbc.Calc.Powers
import Pbc.Calc.Safety
import Pbc.Calc.Scan
import Pbc.Calc.Sentences
import Pbc.Calc.Spelling
import Pbc.Calc.Values
import Pbc.Ecc.ABilinear
import Pbc.Ecc.AEllnet
import Pbc.Ecc.AEllnetMiller
import Pbc.Ecc.AEllnetRun
import Pbc.Ecc.AMiller
import Pbc.Ecc.AParam
import Pbc.Ecc.ATable
import Pbc.Ecc.ATateexp
import Pbc.Ecc.Curve
import Pbc.Ecc.CurveBytes
import Pbc.Ecc.CurveHash
import Pbc.Ecc.CurveMultiples
import Pbc.Ecc.CurveRuns
import Pbc.Ecc.CurveSquare
import Pbc.Ecc.CurveStore
import Pbc.Ecc.CurveText
import Pbc.Ecc.CurveZp
import Pbc.Ecc.DCoddh
import Pbc.Ecc.DMiller
import Pbc.Ecc.DParam
import Pbc.Ecc.DProj
import Pbc.Ecc.DTable
import Pbc.Ecc.DTatepower
import Pbc.Ecc.EBilinear
import Pbc.Ecc.EEllnet
import Pbc.Ecc.EEllnetMiller
import Pbc.Ecc.EMiller
import Pbc.Ecc.EOffset
import Pbc.Ecc.EParam
import Pbc.Ecc.EllnetBlock
import Pbc.Ecc.FBilinear
import Pbc.Ecc.FGen
import Pbc.Ecc.FMiller
import Pbc.Ecc.FParam
import Pbc.Ecc.FTatepower
import Pbc.Ecc.FindRoot
import Pbc.Ecc.Freeman
import Pbc.Ecc.GBilinear
import Pbc.Ecc.GEllnet
import Pbc.Ecc.GParam
import Pbc.Ecc.GTatepower
import Pbc.Ecc.Hilbert
import Pbc.Ecc.Lucas
import Pbc.Ecc.LucasStore
import Pbc.Ecc.Mnt
import Pbc.Ecc.OddExtension
import Pbc.Ecc.Pairing
import Pbc.Ecc.ParamSearch
import Pbc.Ecc.ParamText
import Pbc.Ecc.PellRun
import Pbc.Ecc.PointBytes
import Pbc.Ecc.PointText
import Pbc.Ecc.Singular
import Pbc.Ecc.Snprint
import Pbc.Ecc.Untwist
import Pbc.Elliptic.Cocycle
import Pbc.Elliptic.Division
import Pbc.Elliptic.Line
import Pbc.Elliptic.Miller
import Pbc.Elliptic.Net
import Pbc.Elliptic.Node
import Pbc.Elliptic.RationalLine
import Pbc.Elliptic.RationalNet
import Pbc.Elliptic.RationalTate
import Pbc.Elliptic.Rescale
import Pbc.Elliptic.Secant
import Pbc.Elliptic.Short
import Pbc.Elliptic.Tate
import Pbc.Elliptic.Twist
import Pbc.Gmp.Bytes
import Pbc.Gmp.Mpn
import Pbc.Gmp.Mpz
import Pbc.Misc.Client
import Pbc.Misc.Darray
import Pbc.Misc.ExtendPrintf
import Pbc.Misc.Formats
import Pbc.Misc.Fuel
import Pbc.Misc.Heap
import Pbc.Misc.Parse
import Pbc.Misc.Snprintf
import Pbc.Misc.SymtabStore
import Pbc.Number.Bits
import Pbc.Number.Lucas
import Pbc.Number.Montgomery
import Pbc.Number.PowerSum
import Pbc.Number.ReducedForms
import Pbc.Number.Rejection
import Pbc.Number.Surd
import Pbc.Schemes.Ibces
import Pbc.Schemes.IdentitySignatures
import Pbc.Schemes.Waters
