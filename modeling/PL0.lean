import PL0.File.Disk
import PL0.Main
import PL0.Proofs.Backpatching
import PL0.Proofs.CorrectPrefix
import PL0.Proofs.Limits
import PL0.Proofs.Preservation
import PL0.Proofs.Verifier.Compiled
import PL0.Proofs.Renaming
import PL0.Proofs.Phases
import PL0.Proofs.OutputSize
import PL0.Proofs.Addresses
import PL0.Proofs.Levels
import PL0.Proofs.EventLog
import PL0.Proofs.Repetition
import PL0.Proofs.Records
import PL0.Proofs.Visibility
import PL0.Proofs.Buffers
import PL0.Proofs.FailedRun
import PL0.Proofs.Concatenation
import PL0.Proofs.Termination
import PL0.Proofs.Mentions
import PL0.Proofs.LeftmostFault
import PL0.Proofs.SuccessfulRun
import PL0.Proofs.Readback.CodeText
import PL0.Proofs.Readback.Listing
import PL0.Proofs.Json.Document
import PL0.Proofs.Json.Indented
import PL0.Proofs.Readback.Dump
import PL0.Proofs.LimitsText
import PL0.Proofs.AddressRange
