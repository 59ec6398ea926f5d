import CryptoCard.Memory
import CryptoCard.Chunks
import CryptoCard.Interleave
import CryptoCard.WakeUp
import CryptoCard.Configuration
import CryptoCard.Mapping
import CryptoCard.Lifetimes
import CryptoCard.Unbind
import CryptoCard.Window
import CryptoCard.Failures
import CryptoCard.Restarts
import CryptoCard.Sharing
import CryptoCard.Placement
import CryptoCard.Refusals
import CryptoCard.MapCard
import CryptoCard.Discipline
import CryptoCard.Secrets
import CryptoCard.Hung
import CryptoCard.Transcript
import CryptoCard.Service
import CryptoCard.Starts
import CryptoCard.Refinement
import CryptoCard.Publication
