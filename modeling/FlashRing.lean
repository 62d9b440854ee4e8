import FlashRing.Device.Ram
import FlashRing.Main
import FlashRing.Proofs.Atomicity
import FlashRing.Proofs.DeleteCut
import FlashRing.Proofs.FormatCut
import FlashRing.Proofs.Refinement
import FlashRing.Proofs.Effect
import FlashRing.Proofs.Step
import FlashRing.Proofs.Advance
import FlashRing.Proofs.History
import FlashRing.Proofs.Resumption
import FlashRing.Proofs.RingOrder
import FlashRing.Proofs.WearLevelling
import FlashRing.Proofs.Resolution
import FlashRing.Proofs.Agreement
import FlashRing.Proofs.FailedStartup
import FlashRing.Proofs.Imaging
import FlashRing.Proofs.Interchange
import FlashRing.Proofs.Confinement
import FlashRing.Proofs.Transparency
import FlashRing.Proofs.Processes
import FlashRing.Proofs.Fencing
import FlashRing.Proofs.Keys
import FlashRing.Proofs.Refusal
import FlashRing.Proofs.Relocation
import FlashRing.Proofs.Overlay
import FlashRing.Proofs.ArrayRefusal
import FlashRing.Proofs.ArrayCut
import FlashRing.Proofs.BareArrays
import FlashRing.Proofs.Costs
import FlashRing.Proofs.Lookups
import FlashRing.Proofs.Opening
import FlashRing.Proofs.Numerals
import FlashRing.Proofs.HexText
import FlashRing.Proofs.PowerCut
