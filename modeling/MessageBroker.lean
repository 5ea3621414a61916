import MessageBroker.Tfs.HandleBinding
import MessageBroker.Tfs.Offsets
import MessageBroker.Tfs.OpenFailure
import MessageBroker.Tfs.Initialisation
import MessageBroker.Tfs.Lookup
import MessageBroker.ProducerConsumer.Fifo
import MessageBroker.ProducerConsumer.Wakeups
import MessageBroker.Broker.Busy
import MessageBroker.Broker.QueueBuffer
import MessageBroker.Broker.ListPipe
import MessageBroker.Broker.Timing
import MessageBroker.Broker.Removal
import MessageBroker.Broker.Handles
import MessageBroker.Broker.Request
import MessageBroker.Broker.Reply
import MessageBroker.Broker.RoundTrip
import MessageBroker.Broker.Cleanup
import MessageBroker.Clients.Sort
import MessageBroker.Broker.EndToEnd
import MessageBroker.Broker.PublisherEnd
import MessageBroker.Broker.SubscriberEnd
import MessageBroker.Broker.RegisterPipe
import MessageBroker.Broker.Catalogue
import MessageBroker.Broker.ManagerPipe
import MessageBroker.Tfs.Lifetime
