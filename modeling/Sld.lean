import Sld.Dynamic.CopyConsistency
import Sld.Arrays.PointerOrder
import Sld.Dynamic.HashLookup
import Sld.Dynamic.SlotAgreement
import Sld.Dynamic.SymbolVersions
import Sld.Dynamic.VersionChains
import Sld.Gc.Completeness
import Sld.Hash.Blake3
import Sld.Incremental.BuildIdUpdate
import Sld.Incremental.CrashSafety
import Sld.Incremental.DynamicAdditions
import Sld.Incremental.DynamicPatches
import Sld.Incremental.DynamicSlots
import Sld.Incremental.EhFrameHdr
import Sld.Incremental.EhFrameHdrPatches
import Sld.Incremental.FdeAdditionWalks
import Sld.Incremental.FdePartners
import Sld.Incremental.InstructionCalls
import Sld.Incremental.MaskedFields
import Sld.Incremental.MovedTargets
import Sld.Incremental.PatchOrder
import Sld.Incremental.RelocationRuns
import Sld.Incremental.TargetLookup
import Sld.Incremental.TimestampRuns
import Sld.Layout.LowParts
import Sld.Layout.RedirectResolutions
import Sld.Layout.RelaxLookups
import Sld.Layout.RequestedAddresses
import Sld.Layout.RelaxedCalls
import Sld.Layout.SectionRules
import Sld.Layout.SymbolAddresses
import Sld.Layout.ThunkBlocks
import Sld.Layout.WrittenSlices
import Sld.MachO.FixupWalks
import Sld.Relocs.DebugRelocations
import Sld.Relocs.Stubs
import Sld.Script.Assertions
import Sld.Script.CleanLayouts
import Sld.Script.RegionCycles
import Sld.Script.SymbolExpressions
import Sld.Script.SymbolMatching
import Sld.Script.Termination
import Sld.Store.Erasure
import Sld.Strings.FindString
import Sld.Strings.PatchRecords
import Sld.Strings.PreservedContent
import Sld.Symbols.ChunkedResolution
import Sld.Symbols.NameLookup
import Sld.Symbols.WrappedSymbols
import Sld.Symbols.InputLoading
