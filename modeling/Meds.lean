import Meds.Core.Arr
import Meds.Core.Run
import Meds.Core.Rejection
import Meds.Core.Guarded
import Meds.Core.Loop
import Meds.Core.Bits
import Meds.Ref.BitstreamSpec
import Meds.Core.TreeCover
import Meds.Ref.Seed
import Meds.Ref.SeedWalk
import Meds.Ref.SeedPath
import Meds.Ref.SeedRegrow
import Meds.Core.Gauss
import Meds.Core.LinearSystem
import Meds.Core.RowSystem
import Meds.Core.Table
import Meds.Ref.MatrixMod
import Meds.Ref.MatrixModSpec
import Meds.Ref.GfInverse
import Meds.Ref.MatrixMulShapes
import Meds.Ref.MatrixInverse
import Meds.Ref.Randombytes
import Meds.Ref.Util
import Meds.Core.Sandwich
import Meds.Core.UnitRows
import Meds.Core.KeccakF
import Meds.Core.KeccakString
import Meds.Ref.KeccakPermute
import Meds.Ref.Keccak
import Meds.Ref.KeccakSponge
import Meds.Ref.KeccakSpec
import Meds.Core.Sponge
import Meds.Ref.UtilSpec
import Meds.Ref.PiAction
import Meds.Ref.SolveSpec
import Meds.Ref.MedsSerial
import Meds.Ref.PackSpec
import Meds.Ref.KeypairSpec
import Meds.Ref.PublicKey
import Meds.Ref.PublicKeyStale
import Meds.Ref.Commit
import Meds.Ref.SignSpec
import Meds.Ref.Completeness
import Meds.Ref.OpenSafe
import Meds.Ref.StreamKeypair
import Meds.Ref.StreamOps
import Meds.Ref.StreamSign
import Meds.Ref.SystematicForm
import Meds.Ref.SolveExact
import Meds.Ref.BitstreamRoundtrip
import Meds.Ref.SignLeftover
import Meds.Ref.Reencode
import Meds.Ref.SpecialSound
import Meds.Ref.StaleMemory
import Meds.Ref.ChunkedKeys
import Meds.Core.CtrDrbg
import Meds.Core.Dialog
import Meds.Core.Lines
import Meds.Core.Network
import Meds.Core.Checked
import Meds.Ref.Wire
import Meds.Ref.MatrixTransfer
import Meds.Ref.StreamSignSmall
import Meds.Ref.StreamSignStale
import Meds.Ref.SerialIO
import Meds.Ref.KeygenDialog
import Meds.Ref.CheckedStream
import Meds.Ref.ChallengeShape
import Meds.Ref.WalkBounds
import Meds.Ref.Sizes
import Meds.Core.Match
import Meds.Core.Echelon
import Meds.Sage.BitStream
import Meds.Sage.BitStreamNarrow
import Meds.Sage.StreamOps
import Meds.Sage.SeedTree
import Meds.Sage.Util
import Meds.Sage.Verify
import Meds.Sage.WideCode
import Meds.Sage.MedsSign
import Meds.Sage.KeypairAgree
import Meds.Sage.SignAgree
import Meds.Sage.ChallengeEnds
import Meds.Sage.ChallengeMasks
import Meds.Sage.WideSign
import Meds.Sage.SignersDiffer
import Meds.Sage.SeedTreeAgree
import Meds.Sage.MedsBase
import Meds.Sage.Sampling
import Meds.Sage.Solvers
import Meds.Sage.SolveOpt
import Meds.Sage.SolveSymb
import Meds.Sage.SolversAgree
import Meds.Sage.Candidates
import Meds.Sage.Randombytes
import Meds.Sage.Challenge
import Meds.Sage.Matrices
import Meds.Sage.Coding
import Meds.Sage.KatStream
import Meds.Sage.KatText
import Meds.Sage.KatMemory
import Meds.Sage.KatScan
import Meds.Sage.KatKeygen
import Meds.Sage.KatMain
import Meds.Sage.KatSign
import Meds.Kat.Reading
import Meds.Ref.SignedOpens
import Meds.Kat.Test
import Meds.Kat.Requests
import Meds.Kat.Responses
import Meds.Kat.SageTest
import Meds.Kat.SageResponses
import Meds.Kat.SageCheck
import Meds.Kat.Device
import Meds.Kat.DeviceKeys
import Meds.Kat.DeviceSign
import Meds.Kat.DeviceCommands
import Meds.Kat.Host
import Meds.Kat.SerialSession
import Meds.Ref.SeedExpander
import Meds.Ref.PqmAes
import Meds.Ref.Stm32
