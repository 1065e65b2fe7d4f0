import MosquittoSubs.Model
import MosquittoSubs.Publish
import MosquittoSubs.SysTree
import MosquittoSubs.Subscribe
import MosquittoSubs.Unsubscribe
import MosquittoSubs.Clean
import MosquittoSubs.Run
import MosquittoSubs.Frame
import MosquittoSubs.Invariant
import MosquittoSubs.Preservation
import MosquittoSubs.Consistency
import MosquittoSubs.Shape
import MosquittoSubs.Index
import MosquittoSubs.SubscribeSpec
import MosquittoSubs.UnsubscribeSpec
import MosquittoSubs.CleanSpec
import MosquittoSubs.Matching
import MosquittoSubs.Delivery
import MosquittoSubs.Publication
import MosquittoSubs.SysTopic
import MosquittoSubs.Refinement
import MosquittoSubs.Untouched
import MosquittoSubs.Rotation
import MosquittoSubs.RoundTrip
import MosquittoSubs.Isolation
import MosquittoSubs.Queued
import MosquittoSubs.Repeat
import MosquittoSubs.Persist
import MosquittoSubs.Limits
